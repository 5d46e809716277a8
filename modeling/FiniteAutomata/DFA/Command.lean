import FiniteAutomata.DFA.Basic

set_option autoImplicit false

/-!
The calls that change a deterministic automaton, as data. A call that is refused changes nothing.
-/

namespace FiniteAutomata

namespace DFA

inductive Command where
  | addState (name : Label) (members : List Label)
  | addFinal (name : Label) (members : List Label)
  | addSymbol (symbol : Label)
  | addTransition (source symbol target : Label)

def perform (dfa : DFA) : Command → Except Error DFA
  | .addState name members => .ok (dfa.addState name members)
  | .addFinal name members => .ok (dfa.addFinal name members)
  | .addSymbol symbol => dfa.addSymbol symbol
  | .addTransition source symbol target => dfa.addTransition source symbol target

def attempt (dfa : DFA) (command : Command) : DFA :=
  match dfa.perform command with
  | .ok changed => changed
  | .error _ => dfa

/-- Carries on after calls that are refused. -/
def replay (dfa : DFA) (commands : List Command) : DFA :=
  commands.foldl attempt dfa

@[simp] theorem replay_nil (dfa : DFA) : dfa.replay [] = dfa := rfl

@[simp] theorem replay_append (dfa : DFA) (first second : List Command) :
    dfa.replay (first ++ second) = (dfa.replay first).replay second := by
  simp [replay]

end DFA

end FiniteAutomata
