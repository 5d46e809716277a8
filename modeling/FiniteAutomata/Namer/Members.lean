import FiniteAutomata.Member.Listing
import FiniteAutomata.Member.Order
import FiniteAutomata.Namer

set_option autoImplicit false

/-!
Names for sets of any members. Where all members are states or names, the set has the name that the namer
gives to the set of their names; other members are refused, but for tuples and sets that hold something to
be escaped.
-/

namespace FiniteAutomata

namespace Namer

def isSpecial (namer : Namer) : Member → Bool
  -- a text that is escaped as a whole where it is an item of something else
  | .label (.text text) => text == "\\" || text == String.singleton namer.lead
  | _ => false

def escapeItem (namer : Namer) (item : Member) : Piece :=
  match item with
  | .label (.text text) => .ok (if namer.isSpecial item then "\\" ++ text else text)
  | other => .error other.kind

def escapeMember (namer : Namer) : Member → Except Error Piece
  -- what goes through without an item to escape is left as it is
  | .label (.text name) => .ok (.ok (namer.escape name))
  | other =>
      match other.items? with
      | none => .error (.notSpelled other.kind)
      | some items =>
          if items.any namer.isSpecial then do
            pure (.ok (← Piece.join "" (items.map namer.escapeItem)))
          else .ok (.error other.kind)

def nameMembers (namer : Namer) (members : List Member) : Except Error String := do
  let pieces ← (← Member.sorted (Member.listed (members.map Member.byName))).mapM namer.escapeMember
  pure (namer.opener.plain ++ (← Piece.join namer.separator pieces) ++ namer.closer.plain)

theorem nameMembers_map_text (namer : Namer) (names : List String) :
    namer.nameMembers (names.map fun name => .label (.text name)) = .ok (namer.name names) := by
  have plain : (names.map fun name => Member.label (.text name)).map Member.byName =
      names.map fun name => Member.label (.text name) := by
    simp [Member.byName]
  have pieces (sorted : List String) :
      (sorted.map fun name => Member.label (.text name)).mapM namer.escapeMember =
        .ok ((sorted.map namer.escape).map .ok) := by
    induction sorted with
    | nil => rfl
    | cons head tail ih =>
        simp [List.mapM_cons, ih, escapeMember, bind, Except.bind, pure, Except.pure]
  have sorted : Member.sorted (Member.listed (names.map fun name => .label (.text name))) =
      .ok ((canonical names).map fun name => .label (.text name)) := by
    rw [Member.listed, Member.inPlace, eraseDups_map _ (by simp), sortOn_map, Member.sorted_map_text,
      sortOn_id_congr (sortOn_perm ..), canonical]
  rw [nameMembers, plain, sorted]
  simp only [bind, Except.bind, pieces, Piece.join_map_ok]
  rfl

theorem nameMembers_map_state (namer : Namer) (states : List State) :
    namer.nameMembers (states.map .state) = .ok (namer.name (states.map State.name)) := by
  rw [← nameMembers_map_text]
  simp [nameMembers, Member.byName, Function.comp_def]

end Namer

end FiniteAutomata
