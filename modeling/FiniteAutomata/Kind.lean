import FiniteAutomata.Label.Basic

set_option autoImplicit false

namespace FiniteAutomata

/-- The kinds of value that an operation can be given where it expects another. -/
inductive Kind where
  | null | truth | int | text | tuple | marker | state | stateSet | namer | skeleton | nfa | dfa
  | table | method
  deriving DecidableEq

def Kind.word : Kind → String
  | .null => "NoneType"
  | .truth => "bool"
  | .int => "int"
  | .text => "str"
  | .tuple => "tuple"
  | .marker => "Marker"
  | .state => "State"
  | .stateSet => "StateSet"
  | .namer => "StateNamer"
  | .skeleton => "FSA"
  | .nfa => "NFA"
  | .dfa => "DFA"
  | .table => "dict"
  | .method => "method"

def Label.kind : Label → Kind
  | .null => .null
  | .truth _ => .truth
  | .int _ => .int
  | .text _ => .text
  | .tuple _ => .tuple
  | .marker _ _ => .marker

end FiniteAutomata
