import FiniteAutomata.DFA.Basic

set_option autoImplicit false

namespace FiniteAutomata

namespace DFA

def same (left right : DFA) : Bool :=
  -- Equal in start, states, final states and moves, whatever the order in which they came. The members that
  -- states stand for and the declared symbols do not count.
  left.initial == right.initial && sameMembers left.finals right.finals &&
    sameMembers left.states.keys right.states.keys &&
    left.states.same (fun node other => node.moves.same (· == ·) other.moves) right.states

instance : BEq DFA := ⟨same⟩

end DFA

end FiniteAutomata
