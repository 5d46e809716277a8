import FiniteAutomata.DFA.Basic
import FiniteAutomata.NFA.Basic
import FiniteAutomata.Skeleton
import FiniteAutomata.StateSet

set_option autoImplicit false

/-!
What can be offered as a namer. An offer with nothing in it counts as none, and the standard namer is taken.
Any other that is no namer is found out only when it is to name something.
-/

namespace FiniteAutomata

inductive Offer where
  | namer (namer : Namer)
  | state (state : State)
  | set (set : StateSet)
  | skeleton (skeleton : Skeleton)
  | nfa (nfa : NFA)
  | dfa (dfa : DFA)

namespace Offer

def isEmpty : Offer → Except Error Bool
  | .namer _ | .state _ => .ok false
  | .set members => .ok (members.size == 0)
  | .skeleton automaton => do pure ((← automaton.size) == 0)
  | .nfa automaton => .ok (automaton.size == 0)
  | .dfa automaton => .ok (automaton.size == 0)

def asNamer : Offer → Except Error Namer
  -- the names of states and sets are texts, and cannot be asked for a name in turn
  | .namer given => .ok given
  | .state _ => .error (.notApplicable .text)
  | .set members => do
      let _ ← members.name
      throw (.notApplicable .text)
  | .skeleton _ => .error (.lacksPart .skeleton "name")
  | .nfa _ => .error (.lacksPart .nfa "name")
  | .dfa _ => .error (.lacksPart .dfa "name")

def taken (offer : Offer) : Except Error (Except Error Namer) := do
  -- What is taken on an offer. The outer error shows at once, the inner one when a name is wanted.
  if ← offer.isEmpty then pure (.ok .standard) else pure offer.asNamer

@[simp] theorem taken_namer (given : Namer) : (namer given).taken = .ok (.ok given) := rfl

end Offer

end FiniteAutomata
