import FiniteAutomata.DFA.Basic
import FiniteAutomata.Text.Sorted

set_option autoImplicit false

/-!
The description of a deterministic automaton in lines: its states, its alphabet, a table with a row for each
state and a column for each symbol, its start and its final states. States and symbols are sorted by their
bare forms.
-/

namespace FiniteAutomata

namespace DFA

def sortedStates (dfa : DFA) : List Label := sortOn Label.plain dfa.states.keys

def sortedAlphabet (dfa : DFA) : List Label := sortOn Label.plain dfa.alphabet

def sortedFinals (dfa : DFA) : List Label := sortOn Label.plain dfa.finals

def bracedLine (title : String) (items : List Label) : String :=
  title ++ " = \x7b " ++ " ".intercalate (items.map Label.plain) ++ " \x7d"

def cell (dfa : DFA) (state symbol : Label) : String :=
  -- a cell without a move shows a dash
  (dfa.target? state symbol).elim "-" Label.plain

def row (dfa : DFA) (state : Label) : String :=
  "\t" ++ state.plain ++ "\t" ++ "\t".intercalate (dfa.sortedAlphabet.map (dfa.cell state))

def lines (dfa : DFA) : List String :=
  [bracedLine "Q" dfa.sortedStates, bracedLine "Sigma" dfa.sortedAlphabet, "delta =",
    "\t\t" ++ "\t".intercalate (dfa.sortedAlphabet.map Label.plain)] ++
    dfa.sortedStates.map dfa.row ++
    ["q0 = " ++ dfa.initial.plain, bracedLine "F" dfa.sortedFinals]

def describe (dfa : DFA) : String := "\n".intercalate dfa.lines

def dump (dfa : DFA) : String := dfa.describe ++ "\n"

end DFA

end FiniteAutomata
