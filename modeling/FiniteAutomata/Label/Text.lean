import FiniteAutomata.Label.Basic
import FiniteAutomata.Text.Quoted

set_option autoImplicit false

namespace FiniteAutomata

namespace Label

def tupleText : List String → String
  -- a tuple of one item keeps a comma after it
  | [] => "()"
  | [item] => "(" ++ item ++ ",)"
  | items => "(" ++ ", ".intercalate items ++ ")"

mutual

def quoted : Label → String
  -- the form in which a label can be told from any other kind of label: texts stand in quotes
  | .null => "None"
  | .truth value => if value then "True" else "False"
  | .int value => toString value
  | .text value => quote value
  | .tuple items => tupleText (quotedAll items)
  | .marker name _ => "<" ++ name ++ ">"

def quotedAll : List Label → List String
  | [] => []
  | head :: tail => quoted head :: quotedAll tail

end

def plain : Label → String
  -- the bare form: a text stands for itself, anything else is quoted
  | .text value => value
  | other => other.quoted

@[simp] theorem plain_text (value : String) : (text value).plain = value := rfl

end Label

end FiniteAutomata
