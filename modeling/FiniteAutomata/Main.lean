import FiniteAutomata.Blowup

set_option autoImplicit false

namespace FiniteAutomata

def secondsText (nanoseconds : Nat) : String :=
  -- seconds with four decimals, rounded to the nearest
  let units := (nanoseconds + 50000) / 100000
  let fraction := toString (units % 10000)
  toString (units / 10000) ++ "." ++ String.ofList (List.replicate (4 - fraction.length) '0') ++
    fraction

def runBlowup (limit : Int) : IO UInt32 := do
  for n in Blowup.sizes limit do
    let started ← IO.monoNanosNow
    match Blowup.countStates n with
    | .error error =>
        IO.eprintln error.message
        return 1
    | .ok states =>
        IO.print (Blowup.line n states (secondsText ((← IO.monoNanosNow) - started)))
  return 0

def wholeNumber? (text : String) : Option Int :=
  -- a whole number in decimal digits, with a sign or without, between blanks
  let trimmed := text.trimAscii.toString
  match trimmed.toList with
  | '+' :: digits => (String.ofList digits).toNat?.map Int.ofNat
  | _ => trimmed.toInt?

end FiniteAutomata

open FiniteAutomata in
def main (arguments : List String) : IO UInt32 :=
  match arguments with
  | [] => runBlowup Blowup.standardLimit
  | argument :: _ =>
      match wholeNumber? argument with
      | some limit => runBlowup limit
      | none => do
          IO.eprintln ("invalid literal for int() with base 10: " ++ quote argument)
          return 1
