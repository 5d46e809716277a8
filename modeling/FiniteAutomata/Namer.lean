import FiniteAutomata.Error
import FiniteAutomata.Text.Sorted

set_option autoImplicit false

/-!
Names for sets of names. The sorted names stand between brackets with a separator between any two. A
backslash goes before each character that could be taken for the start of a separator, and before each
backslash.
-/

namespace FiniteAutomata

/-- Any way to name a set, given as the list of its members' names. -/
abbrev Naming := List String → String

/-- The separator is `lead` and then `rest`. -/
structure Namer where
  lead : Char
  rest : List Char
  opener : Label
  closer : Label
  lead_ne : lead ≠ '\\'

namespace Namer

def standard : Namer := ⟨',', [' '], .text "[", .text "]", by decide⟩

instance : Inhabited Namer := ⟨standard⟩

def make (separator : String) (brackets : List Label) : Except Error Namer :=
  match separator.toList with
  | [] => .error .emptySeparator
  | lead :: rest =>
      if escapes : lead = '\\' then .error .separatorEscapes
      else
        match brackets with
        | [opener, closer] => .ok ⟨lead, rest, opener, closer, escapes⟩
        | _ :: _ :: _ => .error .tooManyBrackets
        | few => .error (.tooFewBrackets few.length)

def separator (namer : Namer) : String :=
  String.ofList (namer.lead :: namer.rest)

def escapeChars (namer : Namer) (chars : List Char) : List Char :=
  chars.flatMap fun char => if char = '\\' ∨ char = namer.lead then ['\\', char] else [char]

def escape (namer : Namer) (name : String) : String :=
  String.ofList (namer.escapeChars name.toList)

def name (namer : Namer) : Naming := fun names =>
  namer.opener.plain ++ namer.separator.intercalate ((canonical names).map namer.escape) ++
    namer.closer.plain

@[simp] theorem escapeChars_nil (namer : Namer) : namer.escapeChars [] = [] := rfl

@[simp] theorem escapeChars_append (namer : Namer) (left right : List Char) :
    namer.escapeChars (left ++ right) = namer.escapeChars left ++ namer.escapeChars right := by
  simp [escapeChars]

theorem name_standard_nil : standard.name [] = "[]" := by decide +kernel

def quoted (namer : Namer) : String :=
  "StateNamer(" ++ quote namer.separator ++ ", (" ++ namer.opener.quoted ++ ", " ++
    namer.closer.quoted ++ "))"

end Namer

end FiniteAutomata
