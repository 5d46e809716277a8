import FiniteAutomata.DFA.Basic
import FiniteAutomata.NFA.Reading
import FiniteAutomata.Namer

set_option autoImplicit false

/-!
The deterministic automaton of a nondeterministic one. Its states are the non-empty sets of states that the
latter can be in at once, each under the name that a naming gives to its members. Two sets that share a name
stop the construction, and so does a step that leads to something that is no state.
-/

namespace FiniteAutomata

/-- A set of states with the sorted names of its members and its own name, by which it is recognised. The
fault is what kept the set from being found. -/
structure Composite where
  states : List State
  members : List String
  name : String
  fault : Option Error

instance : BEq Composite := ⟨fun left right => left.name == right.name⟩

def Composite.ofStates (naming : Naming) (states : List State) : Composite :=
  let members := canonical (states.map State.name)
  ⟨states, members, naming members, none⟩

namespace NFA

def successor? (nfa : NFA) (naming : Naming) (states : List State) (symbol : Label) :
    Option Composite :=
  match nfa.step states symbol with
  | .ok [] => none
  | .ok reached => some (.ofStates naming reached)
  | .error error => some ⟨[], [], "", some error⟩

/-- A set is admitted if there is nothing wrong with it and no other set has its name. -/
def compositeSearch (nfa : NFA) (naming : Naming) : Search Composite where
  discipline := .newest
  successors composite := nfa.alphabet.filterMap (nfa.successor? naming composite.states)
  admits known composite :=
    composite.fault.isNone && known.all fun other => other.members == composite.members

/-- The sets that can be met are determined by which targets of edges they hold, but for the first. -/
def composites (nfa : NFA) (naming : Naming) (start : List State) : Exploration Composite :=
  (nfa.compositeSearch naming).run (Nat.pow 2 (nfa.graph.edges.length + 1)) [.ofStates naming start]

def nodeOf (nfa : NFA) (naming : Naming) (composite : Composite) : Node where
  members := composite.members.map .text
  moves := ⟨nfa.alphabet.filterMap fun symbol =>
    (nfa.successor? naming composite.states symbol).map fun target => (symbol, .text target.name)⟩

def assemble (nfa : NFA) (naming : Naming) (start : List State) (found : List Composite) : DFA where
  initial := .text (Composite.ofStates naming start).name
  epsilon := nfa.epsilon
  states := ⟨found.map fun composite => (.text composite.name, nfa.nodeOf naming composite)⟩
  finals := (found.filter fun composite => nfa.isFinal composite.states).map fun composite =>
    .text composite.name
  alphabet := nfa.alphabet

def conclude (nfa : NFA) (naming : Naming) (start : List State) (exploration : Exploration Composite) :
    Except Error DFA :=
  match exploration.refused with
  | some composite => .error (composite.fault.getD (.sharedName composite.name))
  | none => .ok (nfa.assemble naming start exploration.found)

def toDfa (nfa : NFA) (naming : Naming) : Except Error DFA := do
  let start ← nfa.start
  nfa.conclude naming start (nfa.composites naming start)

def toDfaBy (nfa : NFA) (naming : Except Error Naming) : Except Error DFA := do
  -- a naming that is missing is missed only after the start
  let _ ← nfa.start
  nfa.toDfa (← naming)

def addedEvent (composite : Composite) : Event :=
  ⟨.trace, "Added DFA state " ++ composite.name⟩

def summaryEvent (nfa : NFA) (dfa : DFA) (elapsed : String) : Event :=
  ⟨.debug, "Built DFA with " ++ toString dfa.size ++ " states (" ++ toString dfa.finals.length ++
    " final) from " ++ toString nfa.size ++ " NFA states in " ++ elapsed ++ "s"⟩

def toDfaEvents (nfa : NFA) (naming : Naming) (elapsed : String) : List Event :=
  match nfa.start with
  | .error _ => []
  | .ok start =>
      let first := Composite.ofStates naming start
      let exploration := nfa.composites naming start
      addedEvent first :: ⟨.debug, "Subset construction starts from " ++ first.name⟩ ::
        (exploration.found.drop 1).map addedEvent ++
        match nfa.conclude naming start exploration with
        | .ok dfa => [nfa.summaryEvent dfa elapsed]
        | .error _ => []

def toDfaByEvents (nfa : NFA) (naming : Except Error Naming) (elapsed : String) : List Event :=
  match naming with
  | .ok naming => nfa.toDfaEvents naming elapsed
  | .error _ => []

theorem toDfaBy_ok (nfa : NFA) (naming : Naming) : nfa.toDfaBy (.ok naming) = nfa.toDfa naming := by
  cases start : nfa.start <;> simp [toDfaBy, toDfa, start, bind, Except.bind]

end NFA

end FiniteAutomata
