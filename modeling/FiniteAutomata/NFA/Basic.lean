import FiniteAutomata.Graph
import FiniteAutomata.Machine

set_option autoImplicit false

/-!
Nondeterministic automata, built up by name. There is one start at a time; final and ordinary states are
kept apart, each in the order in which they were declared. A name is looked up among the start, the final
and the ordinary states in this order, so that a state can hide others that bear its name.
-/

namespace FiniteAutomata

structure NFA where
  epsilon : Label
  initial : Option State
  finals : List State
  ordinary : List State
  alphabet : List Label
  graph : Graph

namespace NFA

def empty (epsilon : Label) (graph : Graph) : NFA := ⟨epsilon, none, [], [], [], graph⟩

def declared (nfa : NFA) : List State :=
  nfa.initial.toList ++ nfa.finals ++ nfa.ordinary

def find? (nfa : NFA) (name : Label) : Option State :=
  nfa.declared.find? fun state => .text state.name == name

def find (nfa : NFA) (name : Label) : Except Error State :=
  match nfa.find? name with
  | some state => .ok state
  | none => .error (.unknownState name)

def allStates (nfa : NFA) : List State :=
  -- one state for each name
  nfa.declared.foldl addNew []

def size (nfa : NFA) : Nat := nfa.allStates.length

def quoted (nfa : NFA) : String :=
  "<NFA start=" ++ nfa.initial.elim "None" State.quoted ++ " states=" ++ toString nfa.size ++
    " alphabet=" ++ toString nfa.alphabet.length ++ ">"

def setStart (nfa : NFA) (name : Label) : Except Error NFA := do
  let (state, graph) ← nfa.graph.newState name
  pure { nfa with initial := some state, graph }

def addState (nfa : NFA) (name : Label) : Except Error NFA := do
  let (state, graph) ← nfa.graph.newState name
  pure { nfa with ordinary := addNew nfa.ordinary state, graph }

def addFinal (nfa : NFA) (name : Label) : Except Error NFA := do
  let (state, graph) ← nfa.graph.newState name
  pure { nfa with finals := addNew nfa.finals state, graph }

def addSymbol (nfa : NFA) (symbol : Label) : Except Error NFA := do
  checkSymbol nfa.epsilon symbol
  pure { nfa with alphabet := addNew nfa.alphabet symbol }

def addTransition (nfa : NFA) (source label target : Label) : Except Error NFA := do
  let sourceState ← nfa.find source
  let targetState ← nfa.find target
  pure { nfa with
    alphabet := if label == nfa.epsilon then nfa.alphabet else addNew nfa.alphabet label
    graph := nfa.graph.connect sourceState label targetState }

def create (epsilon : Label) (alphabet : List Label) (graph : Graph) : Except Error NFA :=
  -- an automaton without states, for a declared alphabet
  alphabet.foldlM addSymbol (empty epsilon graph)

def errorEvents (nfa : NFA) : Error → List Event
  | .unknownState name =>
      [⟨.debug, "Lookup of unknown state " ++ name.quoted ++ " in " ++ nfa.quoted⟩]
  | .unknownObject quoted =>
      [⟨.debug, "Lookup of unknown state " ++ quoted ++ " in " ++ nfa.quoted⟩]
  | _ => []

def resultEvents {α : Type} (nfa : NFA) (result : Except Error α) : List Event :=
  match result with
  | .ok _ => []
  | .error error => nfa.errorEvents error

end NFA

end FiniteAutomata
