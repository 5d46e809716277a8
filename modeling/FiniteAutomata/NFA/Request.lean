import FiniteAutomata.NFA.Reading
import FiniteAutomata.Operand

set_option autoImplicit false

/-!
Requests that mention states by whatever stands for them.
-/

namespace FiniteAutomata

namespace NFA

-- A state stands for whatever bears its name now.

def resolve (nfa : NFA) (operand : Operand) : Except Error State := do
  match (← operand.asMember).byName with
  | .label name => nfa.find name
  | other => do throw (.unknownObject (← other.quoted))

def successors (nfa : NFA) (operand : Operand) (symbol : Label) : Except Error (List Member) := do
  checkSymbol nfa.epsilon symbol
  pure (nfa.graph.recorded (← nfa.resolve operand) symbol)

def closure (nfa : NFA) (operands : List Operand) : Except Error (List State) := do
  nfa.closed (← operands.mapM nfa.resolve)

def epsilonClosure (nfa : NFA) (operand : Operand) : Except Error (List State) :=
  nfa.closure [operand]

-- These take states as they are, whatever bears their names now.

def moveAmong (nfa : NFA) (operands : List Operand) (label : Label) : Except Error (List Member) := do
  pure (nfa.moved (← operands.mapM Operand.asState) label)

def nextAmong (nfa : NFA) (operands : List Operand) (symbol : Label) :
    Except Error (List State) := do
  checkSymbol nfa.epsilon symbol
  nfa.step (← operands.mapM Operand.asState) symbol

def isFinalAmong (nfa : NFA) : List Operand → Except Error Bool
  -- operands are examined up to the first final one
  | [] => .ok false
  | operand :: rest => do
      match ← operand.nameOf with
      | .ok name =>
          if nfa.finals.any fun state => state.name == name then pure true
          else nfa.isFinalAmong rest
      | .error _ => nfa.isFinalAmong rest

end NFA

end FiniteAutomata
