import FiniteAutomata.DFA.Equality
import FiniteAutomata.Member.Order

set_option autoImplicit false

/-!
Anything that a request can mention. Deterministic automata can be compared for equality, but they cannot be
put in sets.
-/

namespace FiniteAutomata

inductive Operand where
  | member (member : Member)
  | dfa (dfa : DFA)

namespace Operand

def kind : Operand → Kind
  | .member value => value.kind
  | .dfa _ => .dfa

def asMember : Operand → Except Error Member
  | .member value => .ok value
  | .dfa _ => .error (.notCollectable .dfa)

def asState : Operand → Except Error State
  -- the transitions of a deterministic automaton are a table, where those of a state are asked for by label
  | .member value => value.asState
  | .dfa _ => .error (.notApplicable .table)

def nameOf : Operand → Except Error Piece
  | .member value => value.nameOf
  | .dfa _ => .error (.lacksPart .dfa "name")

def same : Operand → Operand → Bool
  | .member left, .member right => left == right
  | .dfa left, .dfa right => left == right
  | _, _ => false

instance : BEq Operand := ⟨same⟩

def compareOrder (comparison : Comparison) : Operand → Operand → Except Error Bool
  | .member left, .member right => Member.compareOrder comparison left right
  | left, right => .error (.unordered comparison left.kind right.kind)

def compare (comparison : Comparison) (left right : Operand) : Except Error Bool :=
  match comparison with
  | .equal => .ok (left == right)
  | .different => .ok (left != right)
  | other => compareOrder other left right

def hashed (operand : Operand) : Except Error Member := do
  -- what the hash is computed from
  pure (← operand.asMember).hashed

def distinct (operands : List Operand) : Except Error Nat := do
  pure (← operands.mapM asMember).eraseDups.length

end Operand

end FiniteAutomata
