import FiniteAutomata.DFA.Basic
import FiniteAutomata.Proofs.Path

set_option autoImplicit false

/-!
Where a deterministic automaton comes to when it reads a word. It gets stuck where a move is missing, unless a
move leads to null, which it takes for being stuck.
-/

namespace FiniteAutomata

theorem isNull_iff (label : Label) : DFA.isNull label = true ↔ label = .null := by
  cases label <;> simp [DFA.isNull]

theorem isNull_congr {label other : Label} (same : (label == other) = true) :
    DFA.isNull label = DFA.isNull other := by
  rw [Bool.eq_iff_iff, isNull_iff, isNull_iff, ← Label.beq_null_iff, ← Label.beq_null_iff, BEq.congr_left same]

namespace DFA

variable (dfa : DFA)

/-- The state after a word, unless a move is missing on the way. -/
def follow (state : Label) (word : List Label) : Option Label :=
  word.foldlM dfa.target? state

@[simp] theorem follow_nil (state : Label) : dfa.follow state [] = some state := rfl

@[simp] theorem follow_cons (state symbol : Label) (word : List Label) :
    dfa.follow state (symbol :: word) =
      (dfa.target? state symbol).bind fun target => dfa.follow target word := rfl

theorem follow_append (state : Label) (first second : List Label) :
    dfa.follow state (first ++ second) =
      (dfa.follow state first).bind fun middle => dfa.follow middle second := by
  induction first generalizing state with
  | nil => rfl
  | cons symbol rest ih =>
      cases step : dfa.target? state symbol with
      | none => simp [step]
      | some target => simp [step, ih]

/-- Whether a word that is read from `state` ends in a final state. -/
def verdict (state : Label) (word : List Label) : Bool :=
  dfa.isFinal ((dfa.follow state word).getD .null)

/-- No move leads to null. -/
def Solid : Prop :=
  ∀ state symbol target, dfa.target? state symbol = some target → isNull target = false

variable {dfa}

theorem next_of_real (state : Label) {symbol : Label} (real : (symbol == dfa.epsilon) = false) :
    dfa.next state symbol = .ok ((dfa.target? state symbol).getD .null) := by
  simp [next, checkSymbol, real, bind, Except.bind, pure, Except.pure]

theorem next_of_silent (state : Label) {symbol : Label} (silent : (symbol == dfa.epsilon) = true) :
    dfa.next state symbol = .error (.epsilonSymbol symbol) := by
  simp [next, checkSymbol, silent, bind, Except.bind]

theorem read_eq_follow (solid : dfa.Solid) {word : List Label} (unmarked : Unmarked dfa.epsilon word)
    (state : Label) : dfa.machine.read state word = .ok ((dfa.follow state word).getD .null) := by
  induction word generalizing state with
  | nil => rfl
  | cons symbol rest ih =>
      obtain ⟨real, later⟩ := unmarked_cons.mp unmarked
      have step : dfa.machine.next state symbol = _ := next_of_real state real
      rw [Machine.read_cons_ok _ step, follow_cons]
      cases target : dfa.target? state symbol with
      | none => rfl
      | some goal =>
          have unstuck : dfa.machine.isStuck goal = false := solid state symbol goal target
          simp only [Option.getD_some, unstuck, Bool.false_eq_true, if_false, Option.bind_some]
          exact ih later goal

theorem verdict_append {state middle : Label} {first : List Label}
    (path : dfa.follow state first = some middle) (second : List Label) :
    dfa.verdict state (first ++ second) = dfa.verdict middle second := by
  rw [verdict, follow_append, path, Option.bind_some, verdict]

theorem accept_of_read {word : List Label} {last : Label} (read : dfa.machine.read dfa.initial word = .ok last) :
    dfa.accept word = .ok (dfa.isFinal last) := by
  have begun : dfa.machine.start = .ok dfa.initial := rfl
  simp only [accept, Machine.accept, begun, bind, Except.bind, read]
  rfl

theorem accept_eq_verdict (solid : dfa.Solid) {word : List Label} (unmarked : Unmarked dfa.epsilon word) :
    dfa.accept word = .ok (dfa.verdict dfa.initial word) :=
  accept_of_read (read_eq_follow solid unmarked dfa.initial)

end DFA

end FiniteAutomata
