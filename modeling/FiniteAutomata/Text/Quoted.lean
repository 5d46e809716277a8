import FiniteAutomata.Text.Printable

set_option autoImplicit false

/-!
Quoted text: a text between quotation marks in which every character that would be misread or would not
print is escaped with a backslash.
-/

namespace FiniteAutomata

def hexDigits : Nat → Nat → List Char
  -- lower-case hexadecimal with leading zeros, most significant digit first
  | 0, _ => []
  | width + 1, value => hexDigits width (value / 16) ++ [Nat.digitChar (value % 16)]

@[simp] theorem length_hexDigits (width value : Nat) : (hexDigits width value).length = width := by
  induction width generalizing value with
  | zero => rfl
  | succ width ih => simp [hexDigits, ih]

def quotationMark (chars : List Char) : Char :=
  -- the mark is single unless the text holds a single mark and no double one
  if chars.contains '\'' && !chars.contains '"' then '"' else '\''

def escapeChar (mark char : Char) : List Char :=
  if char = '\\' ∨ char = mark then ['\\', char]
  else if char = '\n' then ['\\', 'n']
  else if char = '\r' then ['\\', 'r']
  else if char = '\t' then ['\\', 't']
  else if isPrintable char then [char]
  else if char.toNat < 0x100 then '\\' :: 'x' :: hexDigits 2 char.toNat
  else if char.toNat < 0x10000 then '\\' :: 'u' :: hexDigits 4 char.toNat
  else '\\' :: 'U' :: hexDigits 8 char.toNat

def quote (text : String) : String :=
  let mark := quotationMark text.toList
  String.ofList (mark :: text.toList.flatMap (escapeChar mark) ++ [mark])

end FiniteAutomata
