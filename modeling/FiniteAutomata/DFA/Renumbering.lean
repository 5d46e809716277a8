import FiniteAutomata.DFA.Basic
import FiniteAutomata.Search
import FiniteAutomata.Text.Sorted

set_option autoImplicit false

/-!
A copy of a deterministic automaton whose states are consecutive numbers: first those that can be reached
from the start, breadth first with the symbols sorted by their bare forms, then the others, sorted likewise.
-/

namespace FiniteAutomata

namespace DFA

def sortedTargets (dfa : DFA) (state : Label) : List Label :=
  (sortOn (fun entry => entry.1.plain) (dfa.moves state).entries).map Prod.snd

def breadthSearch (dfa : DFA) : Search Label where
  discipline := .oldest
  successors := dfa.sortedTargets
  admits _ _ := true

def reached (dfa : DFA) : List Label :=
  (dfa.breadthSearch.run (dfa.transitionTable.length + 1) [dfa.initial]).found

def numbered (dfa : DFA) : List Label :=
  -- the states in the order of their numbers
  let reached := dfa.reached
  reached ++ sortOn Label.plain (dfa.states.keys.filter fun state => !reached.contains state)

def numberIn (order : List Label) (base : Int) (state : Label) : Label :=
  .int (base + order.findIdx (· == state))

def Node.rename (change : Label → Label) (node : Node) : Node :=
  { node with moves := ⟨node.moves.entries.map fun entry => (entry.1, change entry.2)⟩ }

def relabel (dfa : DFA) (order : List Label) (change : Label → Label) : DFA where
  initial := change dfa.initial
  epsilon := dfa.epsilon
  states := ⟨order.filterMap fun state =>
    (dfa.states.get? state).map fun node => (change state, Node.rename change node)⟩
  finals := (order.filter dfa.isFinal).map change
  alphabet := sortOn Label.plain dfa.alphabet

def renumber (dfa : DFA) (base : Int) : Except Error DFA := do
  -- only the start can be missing among the states
  dfa.checkState dfa.initial
  let order := dfa.numbered
  pure (dfa.relabel order (numberIn order base))

end DFA

end FiniteAutomata
