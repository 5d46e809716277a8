import FiniteAutomata.Machine
import FiniteAutomata.Table

set_option autoImplicit false

/-!
Deterministic automata. A state has at most one move for each symbol; where it has none, the automaton gets
stuck.
-/

namespace FiniteAutomata

/-- What is known about a state: the names of the states that it stands for, and its moves. -/
structure Node where
  members : List Label
  moves : Table Label Label

structure DFA where
  initial : Label
  epsilon : Label
  states : Table Label Node
  finals : List Label
  alphabet : List Label

namespace DFA

def empty (initial epsilon : Label) : DFA := ⟨initial, epsilon, .empty, [], []⟩

def size (dfa : DFA) : Nat := dfa.states.size

def quoted (dfa : DFA) : String :=
  "<DFA start=" ++ dfa.initial.quoted ++ " states=" ++ toString dfa.size ++ ">"

def hasState (dfa : DFA) (state : Label) : Bool := dfa.states.contains state

def checkState (dfa : DFA) (state : Label) : Except Error Unit :=
  if dfa.hasState state then .ok () else .error (.unknownState state)

def addState (dfa : DFA) (name : Label) (members : List Label) : DFA :=
  { dfa with states := dfa.states.putNew name ⟨members.foldl addNew [], .empty⟩ }

def addFinal (dfa : DFA) (name : Label) (members : List Label) : DFA :=
  { dfa.addState name members with finals := addNew dfa.finals name }

def addSymbol (dfa : DFA) (symbol : Label) : Except Error DFA := do
  checkSymbol dfa.epsilon symbol
  pure { dfa with alphabet := addNew dfa.alphabet symbol }

def addTransition (dfa : DFA) (source symbol target : Label) : Except Error DFA := do
  -- a move on the same symbol is replaced
  checkSymbol dfa.epsilon symbol
  dfa.checkState source
  dfa.checkState target
  pure { dfa with
    states := dfa.states.modify source fun node => { node with moves := node.moves.put symbol target }
    alphabet := addNew dfa.alphabet symbol }

def nonfinals (dfa : DFA) : List Label :=
  dfa.states.keys.filter fun state => !dfa.finals.contains state

def members (dfa : DFA) (state : Label) : Except Error (List Label) :=
  match dfa.states.get? state with
  | some node => .ok node.members
  | none => .error (.unknownState state)

def moves (dfa : DFA) (state : Label) : Table Label Label :=
  (dfa.states.get? state).elim .empty Node.moves

def target? (dfa : DFA) (state symbol : Label) : Option Label :=
  (dfa.moves state).get? symbol

def isFinal (dfa : DFA) (state : Label) : Bool := dfa.finals.contains state

def next (dfa : DFA) (state symbol : Label) : Except Error Label := do
  -- the position where no move leads is null
  checkSymbol dfa.epsilon symbol
  pure ((dfa.target? state symbol).getD .null)

def transitionTable (dfa : DFA) : List ((Label × Label) × Label) :=
  dfa.states.entries.flatMap fun (source, node) =>
    node.moves.entries.map fun (symbol, target) => ((source, symbol), target)

def isNull : Label → Bool
  | .null => true
  | _ => false

def machine (dfa : DFA) : Machine Label where
  start := .ok dfa.initial
  next := dfa.next
  isStuck := isNull
  isFinal state := .ok (dfa.isFinal state)
  plain := Label.plain

def accept (dfa : DFA) (word : List Label) : Except Error Bool :=
  dfa.machine.accept word

end DFA

end FiniteAutomata
