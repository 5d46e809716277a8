import FiniteAutomata.Proofs.DFA.Canonical

set_option autoImplicit false

/-!
What the runs along words tell about a deterministic automaton. If all states of two automata can be reached, and
each word leads both to the same state, the automata are equal.
-/

namespace FiniteAutomata

namespace DFA

variable {dfa left right : DFA}

theorem Regular.unmarked_of_follow (regular : dfa.Regular) {state reached : Label} {word : List Label}
    (path : dfa.follow state word = some reached) : Unmarked dfa.epsilon word := by
  induction word generalizing state with
  | nil => simp [Unmarked]
  | cons symbol rest ih =>
      obtain ⟨target, leads, onward⟩ := Option.bind_eq_some_iff.mp path
      exact unmarked_cons.mpr ⟨(regular.target leads).2.1, ih onward⟩

theorem Regular.follow_of_marked (regular : dfa.Regular) {word : List Label}
    (marked : ¬ Unmarked dfa.epsilon word) (state : Label) : dfa.follow state word = none := by
  cases path : dfa.follow state word with
  | none => rfl
  | some reached => exact absurd (regular.unmarked_of_follow path) marked

section Runs

variable (leftRegular : left.Regular) (rightRegular : right.Regular) (leftAccessible : left.Accessible)
  (rightAccessible : right.Accessible)
  (agree : ∀ word, left.follow left.initial word = right.follow right.initial word)
include leftRegular rightRegular leftAccessible rightAccessible agree

theorem hasState_iff_of_follow (state : Label) : left.hasState state = true ↔ right.hasState state = true := by
  constructor
  · intro known
    obtain ⟨word, reached, path, same⟩ := leftAccessible.reachable state known
    rw [← hasState_congr same]
    exact rightRegular.hasState_follow rightAccessible.started ((agree word).symm.trans path)
  · intro known
    obtain ⟨word, reached, path, same⟩ := rightAccessible.reachable state known
    rw [← hasState_congr same]
    exact leftRegular.hasState_follow leftAccessible.started ((agree word).trans path)

omit leftRegular rightRegular rightAccessible in
theorem target?_eq_of_follow {state : Label} (known : left.hasState state = true) (symbol : Label) :
    left.target? state symbol = right.target? state symbol := by
  obtain ⟨word, reached, path, same⟩ := leftAccessible.reachable state known
  have step := agree (word ++ [symbol])
  rw [left.follow_append, right.follow_append, ← agree word, path] at step
  simpa [target?_congr _ same BEq.rfl] using step

/-- Automata all of whose states can be reached are equal if every word leads both to the same state. -/
theorem beq_of_follow (final : ∀ word state, left.follow left.initial word = some state →
    left.isFinal state = right.isFinal state) : (left == right) = true := by
  have states := hasState_iff_of_follow leftRegular rightRegular leftAccessible rightAccessible agree
  refine (beq_iff_isomorphicBy_id leftRegular rightRegular).mpr ⟨fun state => (states state).mp,
    fun _ _ _ _ => rfl, fun goal known => ⟨goal, (states goal).mpr known, BEq.rfl⟩, ?_, ?_, ?_⟩
  · have begun : left.initial = right.initial := Option.some.inj (agree [])
    exact begun ▸ BEq.rfl
  · intro state known
    obtain ⟨word, reached, path, same⟩ := leftAccessible.reachable state known
    rw [id, ← right.isFinal_congr same, ← left.isFinal_congr same]
    exact (final word reached path).symm
  · intro source symbol target known _
    simp only [id, Moves, target?_eq_of_follow leftAccessible agree known]

end Runs

end DFA

end FiniteAutomata
