set_option autoImplicit false

namespace FiniteAutomata

inductive Level where
  | trace | debug | info
  deriving DecidableEq

namespace Level

def rank : Level → Nat
  | .trace => 0
  | .debug => 1
  | .info => 2

def word : Level → String
  | .trace => "TRACE"
  | .debug => "DEBUG"
  | .info => "INFO"

end Level

/-- A message about what was done. -/
structure Event where
  level : Level
  text : String
  deriving DecidableEq

namespace Event

def line (event : Event) : String :=
  event.level.word ++ ": " ++ event.text

def atLeast (minimum : Level) (events : List Event) : List Event :=
  events.filter fun event => minimum.rank ≤ event.level.rank

@[simp] theorem atLeast_trace (events : List Event) : atLeast .trace events = events := by
  simp [atLeast, Level.rank]

theorem atLeast_append (minimum : Level) (left right : List Event) :
    atLeast minimum (left ++ right) = atLeast minimum left ++ atLeast minimum right := by
  simp [atLeast]

end Event

end FiniteAutomata
