import FiniteAutomata.Proofs.DFA.Equality
import Mathlib.Tactic.Choose

set_option autoImplicit false

/-!
Isomorphisms between deterministic automata. Such automata accept the same words, unless null, which stands for
being stuck, is a state of one of them.
-/

namespace FiniteAutomata

namespace DFA

/-- The change is an isomorphism, states being taken up to equality. -/
structure IsomorphicBy (left right : DFA) (change : Label → Label) : Prop where
  state : ∀ state, left.hasState state = true → right.hasState (change state) = true
  faithful : ∀ state other, left.hasState state = true → left.hasState other = true →
    (change state == change other) = (state == other)
  onto : ∀ goal, right.hasState goal = true →
    ∃ state, left.hasState state = true ∧ (change state == goal) = true
  initial : (change left.initial == right.initial) = true
  final : ∀ state, left.hasState state = true → right.isFinal (change state) = left.isFinal state
  moves : ∀ source symbol target, left.hasState source = true → left.hasState target = true →
    (right.Moves (change source) symbol (change target) ↔ left.Moves source symbol target)

variable {left middle right : DFA} {change next : Label → Label}

theorem isNull_eq_false {dfa : DFA} (stuck : dfa.hasState .null = false) {state : Label}
    (known : dfa.hasState state = true) : isNull state = false := by
  cases state with
  | null => simp [stuck] at known
  | truth | int | text | tuple | marker => rfl

theorem Regular.rejects_null {dfa : DFA} (regular : dfa.Regular) (stuck : dfa.hasState .null = false) :
    dfa.isFinal .null = false := by
  apply Bool.eq_false_iff.mpr
  intro final
  simp [regular.final _ final] at stuck

namespace IsomorphicBy

theorem initial_known (iso : left.IsomorphicBy right change) (started : left.hasState left.initial = true) :
    right.hasState right.initial = true := by
  rw [← hasState_congr iso.initial]
  exact iso.state _ started

theorem symm (iso : left.IsomorphicBy right change) (started : left.hasState left.initial = true) :
    ∃ back, right.IsomorphicBy left back ∧
      ∀ goal, right.hasState goal = true → (change (back goal) == goal) = true := by
  choose! back known same using iso.onto
  have kept {goal other : Label} (here : right.hasState goal = true) (there : right.hasState other = true) :
      (back goal == back other) = (goal == other) := by
    rw [← iso.faithful _ _ (known goal here) (known other there), BEq.congr_left (same goal here),
      BEq.congr_right (same other there)]
  refine ⟨back, ⟨known, fun goal other => kept, ?_, ?_, ?_, ?_⟩, same⟩
  · intro state here
    have there := iso.state state here
    refine ⟨change state, there, ?_⟩
    rw [← iso.faithful _ _ (known _ there) here]
    exact same _ there
  · have there := iso.initial_known started
    rw [← iso.faithful _ _ (known _ there) started]
    exact BEq.trans (same _ there) (BEq.symm iso.initial)
  · intro goal here
    rw [← iso.final _ (known goal here), right.isFinal_congr (same goal here)]
  · intro source symbol target begins ends
    rw [← iso.moves _ symbol _ (known source begins) (known target ends),
      right.moves_congr (same source begins) (same target ends)]

theorem congr (iso : left.IsomorphicBy right change) (started : left.hasState left.initial = true)
    (agree : ∀ state, left.hasState state = true → (change state == next state) = true) :
    left.IsomorphicBy right next where
  state state here := (hasState_congr (agree state here)).symm.trans (iso.state state here)
  faithful state other here there := by
    rw [← BEq.congr_left (agree state here), ← BEq.congr_right (agree other there)]
    exact iso.faithful state other here there
  onto goal here := by
    obtain ⟨state, known, same⟩ := iso.onto goal here
    exact ⟨state, known, BEq.trans (BEq.symm (agree state known)) same⟩
  initial := BEq.trans (BEq.symm (agree _ started)) iso.initial
  final state here := (right.isFinal_congr (agree state here)).symm.trans (iso.final state here)
  moves source symbol target begins ends :=
    (right.moves_congr (agree source begins) (agree target ends)).symm.trans
      (iso.moves source symbol target begins ends)

theorem trans (first : left.IsomorphicBy middle change) (second : middle.IsomorphicBy right next)
    (started : left.hasState left.initial = true) : left.IsomorphicBy right (next ∘ change) where
  state state here := second.state _ (first.state state here)
  faithful state other here there :=
    (second.faithful _ _ (first.state state here) (first.state other there)).trans
      (first.faithful state other here there)
  onto goal here := by
    obtain ⟨half, known, same⟩ := second.onto goal here
    obtain ⟨state, present, equal⟩ := first.onto half known
    refine ⟨state, present, BEq.trans ?_ same⟩
    rw [Function.comp_apply, second.faithful _ _ (first.state state present) known]
    exact equal
  initial := by
    refine BEq.trans ?_ second.initial
    rw [Function.comp_apply, second.faithful _ _ (first.state _ started) (first.initial_known started)]
    exact first.initial
  final state here := (second.final _ (first.state state here)).trans (first.final state here)
  moves source symbol target begins ends :=
    (second.moves _ symbol _ (first.state source begins) (first.state target ends)).trans
      (first.moves source symbol target begins ends)

section Reading

variable (iso : left.IsomorphicBy right change) (leftRegular : left.Regular) (rightRegular : right.Regular)
include iso leftRegular rightRegular

theorem target? {state goal : Label} (here : left.hasState state = true) (same : (change state == goal) = true)
    (symbol : Label) :
    (left.target? state symbol = none ∧ right.target? goal symbol = none) ∨
      ∃ target reached, left.target? state symbol = some target ∧ right.target? goal symbol = some reached ∧
        left.hasState target = true ∧ (change target == reached) = true := by
  cases leads : left.target? state symbol with
  | some target =>
      have known := (leftRegular.target leads).2.2.2
      have moved : left.Moves state symbol target := ⟨target, leads, BEq.rfl⟩
      rw [← iso.moves _ _ _ here known, right.moves_congr same BEq.rfl] at moved
      obtain ⟨reached, arrives, equal⟩ := moved
      exact .inr ⟨target, reached, rfl, arrives, known, BEq.symm equal⟩
  | none =>
      refine .inl ⟨rfl, ?_⟩
      cases arrives : right.target? goal symbol with
      | none => rfl
      | some reached =>
          -- a move of the right automaton is one of the left
          obtain ⟨target, known, equal⟩ := iso.onto reached (rightRegular.target arrives).2.2.2
          have moved : right.Moves goal symbol reached := ⟨reached, arrives, BEq.rfl⟩
          rw [← right.moves_congr same equal, iso.moves _ _ _ here known] at moved
          obtain ⟨found, missing, -⟩ := moved
          simp [leads] at missing

theorem accept_eq (epsilon : right.epsilon = left.epsilon) (started : left.hasState left.initial = true)
    (leftStuck : left.hasState .null = false) (rightStuck : right.hasState .null = false) (word : List Label) :
    right.accept word = left.accept word := by
  have reading (state goal : Label) (here : left.hasState state = true) (same : (change state == goal) = true) :
      (right.machine.read goal word >>= right.machine.isFinal) =
        left.machine.read state word >>= left.machine.isFinal := by
    induction word generalizing state goal with
    | nil =>
        have final : right.isFinal goal = left.isFinal state := by
          rw [← right.isFinal_congr same, iso.final state here]
        exact congrArg Except.ok final
    | cons symbol rest ih =>
        by_cases silent : (symbol == left.epsilon) = true
        · have leftRefused : left.machine.next state symbol = _ := next_of_silent state silent
          have rightRefused : right.machine.next goal symbol = _ := next_of_silent goal (epsilon ▸ silent)
          rw [Machine.read_cons_error _ rightRefused, Machine.read_cons_error _ leftRefused]
          rfl
        · have real : (symbol == left.epsilon) = false := by simpa using silent
          have leftMoved : left.machine.next state symbol = _ := next_of_real state real
          have rightMoved : right.machine.next goal symbol = _ := next_of_real goal (epsilon ▸ real)
          rw [Machine.read_cons_ok _ rightMoved, Machine.read_cons_ok _ leftMoved]
          rcases iso.target? leftRegular rightRegular here same symbol with
            ⟨missing, absent⟩ | ⟨target, reached, leads, arrives, known, equal⟩
          · -- both are stuck, where neither accepts
            rw [missing, absent]
            exact congrArg Except.ok
              ((rightRegular.rejects_null rightStuck).trans (leftRegular.rejects_null leftStuck).symm)
          · have leftOnward : left.machine.isStuck target = false := isNull_eq_false leftStuck known
            have rightOnward : right.machine.isStuck reached = false :=
              isNull_eq_false rightStuck (rightRegular.target arrives).2.2.2
            simp only [leads, arrives, Option.getD_some, leftOnward, rightOnward, Bool.false_eq_true, if_false]
            exact ih target reached known equal
  exact reading left.initial right.initial started iso.initial

end Reading

end IsomorphicBy

section Equality

variable (leftRegular : left.Regular) (rightRegular : right.Regular)
include leftRegular rightRegular

theorem alike_iff_isomorphicBy_id : left.Alike right ↔ left.IsomorphicBy right id := by
  constructor
  · intro alike
    exact ⟨fun state here => alike.states state ▸ here, fun _ _ _ _ => rfl,
      fun goal here => ⟨goal, (alike.states goal).trans here, BEq.rfl⟩, alike.initial,
      fun state _ => (alike.finals state).symm,
      fun source symbol target _ _ => (alike.moves source symbol target).symm⟩
  · intro iso
    have known (state : Label) : left.hasState state = right.hasState state := by
      refine Bool.eq_iff_iff.mpr ⟨iso.state state, fun here => ?_⟩
      obtain ⟨other, present, same⟩ := iso.onto state here
      rwa [← hasState_congr same]
    refine ⟨iso.initial, known, fun state => ?_, fun source symbol target => ?_⟩
    · by_cases here : left.hasState state = true
      · exact (iso.final state here).symm
      · rw [Bool.eq_iff_iff]
        exact iff_of_false (fun ends => here (leftRegular.final state ends)) fun ends =>
          here ((known state).trans (rightRegular.final state ends))
    · by_cases both : left.hasState source = true ∧ left.hasState target = true
      · exact (iso.moves source symbol target both.1 both.2).symm
      · refine iff_of_false (fun moved => both (leftRegular.moves_known moved)) fun moved => both ?_
        obtain ⟨begins, ends⟩ := rightRegular.moves_known moved
        exact ⟨(known source).trans begins, (known target).trans ends⟩

theorem beq_iff_isomorphicBy_id : (left == right) = true ↔ left.IsomorphicBy right id :=
  (beq_iff_alike leftRegular rightRegular).trans (alike_iff_isomorphicBy_id leftRegular rightRegular)

end Equality

theorem Regular.beq_self {dfa : DFA} (regular : dfa.Regular) : (dfa == dfa) = true :=
  (beq_iff_isomorphicBy_id regular regular).mpr
    ⟨fun _ known => known, fun _ _ _ _ => rfl, fun goal known => ⟨goal, known, BEq.rfl⟩, BEq.rfl, fun _ _ => rfl,
      fun _ _ _ _ _ => Iff.rfl⟩

end DFA

end FiniteAutomata
