import FiniteAutomata.NFA.Command
import FiniteAutomata.NFA.Subset

set_option autoImplicit false

/-!
The worst case of the subset construction: the words over `a` and `b` whose `n`-th symbol from the end is an
`a`. The nondeterministic automaton has `n + 1` states, the deterministic one `2 ^ n`.
-/

namespace FiniteAutomata

namespace Blowup

def number (value : Int) : Label := .text (toString value)

def inner (n : Int) : List Int :=
  -- the numbers from 1 up to but not including `n`
  (List.range (n - 1).toNat).map fun index => Int.ofNat index + 1

def commands (n : Int) : List NFA.Command :=
  .setStart (number 0) :: (inner n).map (fun value => .addState (number value)) ++
    [.addFinal (number n), .addTransition (number 0) (.text "a") (number 0),
      .addTransition (number 0) (.text "b") (number 0),
      .addTransition (number 0) (.text "a") (number 1)] ++
    (inner n).flatMap fun value =>
      [.addTransition (number value) (.text "a") (number (value + 1)),
        .addTransition (number value) (.text "b") (number (value + 1))]

def nthFromEnd (n : Int) (graph : Graph) : Except Error NFA :=
  (NFA.empty standardEpsilon graph).performAll (commands n)

def buildEvents (n : Int) (graph : Graph) : List Event :=
  -- what is reported while the automaton is built
  (NFA.empty standardEpsilon graph).performAllEvents (commands n)

def countStates (n : Int) : Except Error Nat := do
  let nfa ← nthFromEnd n .empty
  pure (← nfa.toDfa Namer.standard.name).size

def padded (width : Nat) (text : String) : String :=
  text ++ String.ofList (List.replicate (width - text.length) ' ')

def line (n : Int) (states : Nat) (elapsed : String) : String :=
  "n=" ++ padded 3 (toString n) ++ " states=" ++ padded 7 (toString states) ++ " time=" ++ elapsed ++
    "s\n"

def sizes (limit : Int) : List Int :=
  (List.range (limit - 1).toNat).map fun index => Int.ofNat index + 2

def standardLimit : Int := 14

def report (limit : Int) (elapsed : String) : Except Error String := do
  let lines ← (sizes limit).mapM fun n => do pure (line n (← countStates n) elapsed)
  pure ("".intercalate lines)

def reportEvents (limit : Int) (elapsed : String) : List Event :=
  (sizes limit).flatMap fun n =>
    match nthFromEnd n .empty with
    | .ok nfa => nfa.toDfaEvents Namer.standard.name elapsed
    | .error _ => buildEvents n .empty

end Blowup

end FiniteAutomata
