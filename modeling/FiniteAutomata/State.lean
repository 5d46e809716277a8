import FiniteAutomata.Error

set_option autoImplicit false

namespace FiniteAutomata

/-- A named point of an automaton. A name can be given anew: the serial number tells the states that have
borne it apart, although they count as equal. -/
structure State where
  serial : Nat
  name : String
  name_ne : name ≠ ""

namespace State

instance : BEq State := ⟨fun left right => left.name == right.name⟩

@[simp] theorem beq_eq (left right : State) : (left == right) = (left.name == right.name) := rfl

instance : EquivBEq State where
  rfl := by simp
  symm same := by simp_all
  trans first second := by simp_all

theorem contains_iff (states : List State) (state : State) :
    states.contains state = true ↔ ∃ known ∈ states, known.name = state.name := by
  rw [List.contains_iff_exists_mem_beq]
  constructor
  · rintro ⟨known, present, equal⟩
    have same : state.name = known.name := by simpa using equal
    exact ⟨known, present, same.symm⟩
  · rintro ⟨known, present, same⟩
    exact ⟨known, present, by simp [same]⟩

def ofLabel (serial : Nat) : Label → Except Error State
  | .text name => if empty : name = "" then .error .emptyName else .ok ⟨serial, name, empty⟩
  | other => .error (.nameNotText other)

theorem ofLabel_text (serial : Nat) (name : String) (name_ne : name ≠ "") :
    ofLabel serial (.text name) = .ok ⟨serial, name, name_ne⟩ := by
  simp [ofLabel, name_ne]

def quoted (state : State) : String :=
  "<State " ++ quote state.name ++ ">"

end State

end FiniteAutomata
