import FiniteAutomata.Machine

set_option autoImplicit false

namespace FiniteAutomata

/-- An automaton of which only the start and the marker of silent steps are known. It cannot be stepped. -/
structure Skeleton where
  initial : Label
  epsilon : Label

namespace Skeleton

def allStates (_ : Skeleton) : Except Error (List Label) := .error .unimplemented

def size (skeleton : Skeleton) : Except Error Nat := do
  pure (← skeleton.allStates).length

def next (_ : Skeleton) (_ _ : Label) : Except Error Label := .error .unimplemented

def isFinal (_ : Skeleton) (_ : Label) : Except Error Bool := .error .unimplemented

def machine (skeleton : Skeleton) : Machine Label where
  start := .ok skeleton.initial
  next := skeleton.next
  isStuck _ := false
  isFinal := skeleton.isFinal
  plain := Label.plain

theorem accept_machine (skeleton : Skeleton) (word : List Label) :
    skeleton.machine.accept word = .error .unimplemented := by
  cases word <;> rfl

end Skeleton

end FiniteAutomata
