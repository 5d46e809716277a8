import FiniteAutomata.Member
import FiniteAutomata.Table
import FiniteAutomata.Text.Sorted

set_option autoImplicit false

/-!
The order in which a set lists its members. What stands for nothing comes first and then the number one, other
numbers come last; members that share a place keep the order in which they were added.
-/

namespace FiniteAutomata

def Label.place : Label → Nat
  | .null => 0
  | .truth value => (ofTruth value).toNat
  | .int value => if value = 0 then 0 else if value = 1 then 1 else 3
  | .text value => if value = "" then 0 else 2
  | .tuple items => if items.isEmpty then 0 else 2
  | .marker _ _ => 2

theorem Label.place_normal (label : Label) : label.normal.place = label.place := by
  cases label with
  | truth value => cases value <;> rfl
  | tuple items => cases items <;> rfl
  | null | int | text | marker => rfl

theorem Label.place_eq {left right : Label} (equal : (left == right) = true) :
    left.place = right.place := by
  rw [← place_normal left, (beq_iff left right).mp equal, place_normal]

namespace Member

def place : Member → Nat
  | .label value => value.place
  | .set members _ => if members.isEmpty then 0 else 2
  | .state _ | .object _ _ _ => 2

def inPlace (members : List Member) : List Member :=
  sortOn place members

/-- The members of a set to which the given ones were added in turn. -/
def listed (members : List Member) : List Member :=
  inPlace members.eraseDups

theorem inPlace_perm (members : List Member) : (inPlace members).Perm members :=
  sortOn_perm place members

@[simp] theorem inPlace_map_state (states : List State) :
    inPlace (states.map .state) = states.map .state :=
  sortOn_eq_self place _ (by simp [place])

@[simp] theorem listed_map_state (states : List State) :
    listed (states.map .state) = states.eraseDups.map .state := by
  rw [listed, eraseDups_map _ (by simp), inPlace_map_state]

end Member

end FiniteAutomata
