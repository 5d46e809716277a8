import FiniteAutomata.Error
import FiniteAutomata.Event

set_option autoImplicit false

/-!
Machines read words symbol by symbol. A machine that gets stuck leaves the rest of the word unread.
-/

namespace FiniteAutomata

/-- The marker of silent steps, unless an automaton is given another. -/
def standardEpsilon : Label := .marker "EPSILON" 0

def checkSymbol (epsilon symbol : Label) : Except Error Unit :=
  if symbol == epsilon then .error (.epsilonSymbol symbol) else .ok ()

structure Machine (σ : Type) where
  start : Except Error σ
  next : σ → Label → Except Error σ
  isStuck : σ → Bool
  isFinal : σ → Except Error Bool
  plain : σ → String

namespace Machine

variable {σ : Type}

def read (machine : Machine σ) : σ → List Label → Except Error σ
  | position, [] => .ok position
  | position, symbol :: rest => do
      let reached ← machine.next position symbol
      if machine.isStuck reached then .ok reached else machine.read reached rest

def accept (machine : Machine σ) (word : List Label) : Except Error Bool := do
  machine.isFinal (← machine.read (← machine.start) word)

def readEvents (machine : Machine σ) : σ → List Label → List Event
  -- one message for each symbol that is read, also for one that is then refused
  | _, [] => []
  | position, symbol :: rest =>
      ⟨.trace, "  " ++ machine.plain position ++ " -> " ++ symbol.quoted ++ " ->"⟩ ::
        match machine.next position symbol with
        | .ok reached => if machine.isStuck reached then [] else machine.readEvents reached rest
        | .error _ => []

def events (machine : Machine σ) (word : List Label) : List Event :=
  match machine.start with
  | .ok position => machine.readEvents position word
  | .error _ => []

@[simp] theorem read_nil (machine : Machine σ) (position : σ) :
    machine.read position [] = .ok position := rfl

theorem read_cons_ok (machine : Machine σ) {position reached : σ} {symbol : Label}
    (step : machine.next position symbol = .ok reached) (rest : List Label) :
    machine.read position (symbol :: rest) =
      if machine.isStuck reached then .ok reached else machine.read reached rest := by
  simp [read, step, bind, Except.bind]

theorem read_cons_error (machine : Machine σ) {position : σ} {symbol : Label} {error : Error}
    (step : machine.next position symbol = .error error) (rest : List Label) :
    machine.read position (symbol :: rest) = .error error := by
  simp [read, step, bind, Except.bind]

end Machine

end FiniteAutomata
