import FiniteAutomata.Error

set_option autoImplicit false

namespace FiniteAutomata

/-- What stands where a text is wanted: a text, or something of another kind. -/
abbrev Piece := Except Kind String

namespace Piece

def textsFrom (index : Nat) : List Piece → Except Error (List String)
  -- the texts of pieces that are counted from `index`, if all are texts
  | [] => .ok []
  | .ok text :: rest => do pure (text :: (← textsFrom (index + 1) rest))
  | .error kind :: _ => .error (.notJoined index kind)

def texts (pieces : List Piece) : Except Error (List String) := textsFrom 0 pieces

def join (separator : String) (pieces : List Piece) : Except Error String := do
  pure (separator.intercalate (← texts pieces))

theorem textsFrom_map_ok (index : Nat) (given : List String) :
    textsFrom index (given.map .ok) = .ok given := by
  induction given generalizing index with
  | nil => rfl
  | cons text rest ih => simp [textsFrom, ih, bind, Except.bind, pure, Except.pure]

@[simp] theorem texts_map_ok (given : List String) : texts (given.map .ok) = .ok given :=
  textsFrom_map_ok 0 given

@[simp] theorem join_map_ok (separator : String) (given : List String) :
    join separator (given.map .ok) = .ok (separator.intercalate given) := by
  simp [join, bind, Except.bind, pure, Except.pure]

end Piece

end FiniteAutomata
