import FiniteAutomata.Member
import FiniteAutomata.Text.Sorted

set_option autoImplicit false

/-!
The order of members: states by name, labels among themselves, sets by inclusion. Lists whose members have
an order can be sorted.
-/

namespace FiniteAutomata

namespace Member

def compareSets (comparison : Comparison) (left right : List Member) : Bool :=
  -- the order of sets is inclusion
  match comparison with
  | .equal => within left right && within right left
  | .different => !(within left right && within right left)
  | .less => within left right && !within right left
  | .atMost => within left right
  | .greater => within right left && !within left right
  | .atLeast => within right left

def compareOrder (comparison : Comparison) : Member → Member → Except Error Bool
  | .state left, .state right => .ok (comparison.holds (compare left.name right.name))
  | .label left, .label right =>
      match left.order right with
      | .ok order => .ok (comparison.holds order)
      | .error (leftKind, rightKind) => .error (.unordered comparison leftKind rightKind)
  | .set left _, .set right _ => .ok (compareSets comparison left right)
  | left, right => .error (.unordered comparison left.kind right.kind)

def insertOrdered (item : Member) : List Member → Except Error (List Member)
  -- puts `item` before the first entry that is not less than it
  | [] => .ok [item]
  | head :: tail => do
      if ← compareOrder .less head item then pure (head :: (← insertOrdered item tail))
      else pure (item :: head :: tail)

def sorted : List Member → Except Error (List Member)
  | [] => .ok []
  | head :: tail => do insertOrdered head (← sorted tail)

theorem sorted_map {α : Type} (member : α → Member) (key : α → String)
    (order : ∀ left right, compareOrder .less (member left) (member right) = .ok (key left < key right))
    (items : List α) : sorted (items.map member) = .ok ((sortOn key items).map member) := by
  have insert (item : α) (rest : List α) : insertOrdered (member item) (rest.map member) =
      .ok ((insertSorted key item rest).map member) := by
    induction rest with
    | nil => rfl
    | cons head tail ih =>
        by_cases smaller : key head < key item <;>
          simp [insertOrdered, insertSorted, order, smaller, ih, bind, Except.bind, pure, Except.pure]
  induction items with
  | nil => rfl
  | cons head tail ih =>
      simp [sorted, ih, insert, sortOn, bind, Except.bind]

theorem holds_less_compare (left right : String) :
    Comparison.less.holds (compare left right) = decide (left < right) := by
  have : compare left right = compareOfLessAndEq left right := rfl
  rw [this]
  unfold compareOfLessAndEq
  split
  · simp [Comparison.holds, *]
  · split <;> simp [Comparison.holds, *]

theorem sorted_map_state (states : List State) :
    sorted (states.map .state) = .ok ((sortOn State.name states).map .state) :=
  sorted_map .state State.name (by simp [compareOrder, holds_less_compare]) states

theorem sorted_map_text (names : List String) :
    sorted (names.map fun name => .label (.text name)) =
      .ok ((sortOn id names).map fun name => .label (.text name)) :=
  sorted_map (fun name => .label (.text name)) id
    (by simp [compareOrder, Label.order, holds_less_compare]) names

end Member

end FiniteAutomata
