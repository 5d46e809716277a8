import FiniteAutomata.Label.Text
import FiniteAutomata.Label.Order

set_option autoImplicit false

namespace FiniteAutomata

/-- Why a request was refused. -/
inductive Error where
  | unknownState (name : Label)
  | unknownObject (quoted : String)
  | epsilonSymbol (symbol : Label)
  | noStart
  | nameNotText (name : Label)
  | emptyName
  | emptySeparator
  | separatorEscapes
  | tooFewBrackets (count : Nat)
  | tooManyBrackets
  | unimplemented
  | sharedName (name : String)
  | unordered (comparison : Comparison) (left right : Kind)
  | notCollectable (kind : Kind)
  | lacksPart (kind : Kind) (part : String)
  | notSpelled (kind : Kind)
  | notJoined (index : Nat) (kind : Kind)
  | notApplicable (kind : Kind)

def Error.message : Error → String
  | .unknownState name => "No state named " ++ name.quoted ++ " has been added"
  | .unknownObject quoted => "No state named " ++ quoted ++ " has been added"
  | .epsilonSymbol symbol =>
      "The epsilon marker " ++ symbol.quoted ++ " cannot be used as an input symbol"
  | .noStart => "The automaton has no start state"
  | .nameNotText name => "State names must be strings, not " ++ name.quoted
  | .emptyName => "State names must not be empty"
  | .emptySeparator => "The separator must not be empty"
  | .separatorEscapes => "The separator must not start with a backslash"
  | .tooFewBrackets count => "not enough values to unpack (expected 2, got " ++ toString count ++ ")"
  | .tooManyBrackets => "too many values to unpack (expected 2)"
  | .unimplemented => ""
  | .sharedName name => name ++ " names two state sets"
  | .unordered comparison left right =>
      "'" ++ comparison.sign ++ "' not supported between instances of '" ++ left.word ++ "' and '" ++
        right.word ++ "'"
  | .notCollectable kind => "unhashable type: '" ++ kind.word ++ "'"
  | .lacksPart kind part =>
      "'" ++ kind.word ++ "' object has no attribute '" ++ part ++ "'"
  | .notSpelled kind => "'" ++ kind.word ++ "' object is not iterable"
  | .notJoined index kind =>
      "sequence item " ++ toString index ++ ": expected str instance, " ++ kind.word ++ " found"
  | .notApplicable kind => "'" ++ kind.word ++ "' object is not callable"

end FiniteAutomata
