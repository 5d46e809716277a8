import FiniteAutomata.Proofs.DFA.Tracing
import FiniteAutomata.Proofs.NFA.Marked
import FiniteAutomata.Proofs.NFA.Requests

set_option autoImplicit false

/-!
The order of calls does not matter. Two stable runs with the same latest start, the same final states and the same
transitions give automata that answer every word alike, and deterministic automata that are equal.
-/

namespace FiniteAutomata

namespace NFA

/-- The lists hold states of the same names. -/
def SameNames (left right : List State) : Prop :=
  ∀ name, (∃ state ∈ left, state.name = name) ↔ ∃ state ∈ right, state.name = name

namespace SameNames

variable {lefts rights : List State} (same : SameNames lefts rights)
include same

theorem eq_nil_iff : lefts = [] ↔ rights = [] := by
  simp only [List.eq_nil_iff_forall_not_mem]
  constructor
  · intro none state present
    obtain ⟨other, there, -⟩ := (same state.name).mpr ⟨state, present, rfl⟩
    exact none other there
  · intro none state present
    obtain ⟨other, there, -⟩ := (same state.name).mp ⟨state, present, rfl⟩
    exact none other there

theorem isEmpty_eq : lefts.isEmpty = rights.isEmpty := by
  rw [Bool.eq_iff_iff, List.isEmpty_iff, List.isEmpty_iff, same.eq_nil_iff]

theorem name_eq (namer : Namer) : namer.name (lefts.map State.name) = namer.name (rights.map State.name) := by
  apply namer.name_congr
  simp only [List.mem_map]
  exact same

theorem isFinal_eq {left right : NFA} (finals : SameNames left.finals right.finals) :
    left.isFinal lefts = right.isFinal rights := by
  rw [Bool.eq_iff_iff, isFinal_iff, isFinal_iff]
  constructor
  · rintro ⟨state, present, final⟩
    obtain ⟨other, there, equal⟩ := (same state.name).mp ⟨state, present, rfl⟩
    exact ⟨other, there, equal ▸ (finals state.name).mp final⟩
  · rintro ⟨state, present, final⟩
    obtain ⟨other, there, equal⟩ := (same state.name).mpr ⟨state, present, rfl⟩
    exact ⟨other, there, equal ▸ (finals state.name).mpr final⟩

end SameNames

/-- The runs have the same latest start, the same final states, and the same transitions up to equality of
their labels. -/
structure SameRequests (left right : List Command) : Prop where
  start : latestStart left = latestStart right
  final : ∀ name, .addFinal name ∈ left ↔ .addFinal name ∈ right
  transition : ∀ source label target,
    (∃ spelled, (spelled == label) = true ∧ Asked left source spelled target) ↔
      ∃ spelled, (spelled == label) = true ∧ Asked right source spelled target

theorem SameRequests.symm {left right : List Command} (same : SameRequests left right) :
    SameRequests right left :=
  ⟨same.start.symm, fun name => (same.final name).symm,
    fun source label target => (same.transition source label target).symm⟩

theorem SameRequests.path {leftDone rightDone : List Command} (same : SameRequests leftDone rightDone)
    {epsilon marker first last : Label} (markers : (epsilon == marker) = true) {word : List Label}
    (path : Path (Asked leftDone) epsilon first word last) : Path (Asked rightDone) marker first word last :=
  path.congr markers fun source label target asked =>
    (same.transition source label target).mp ⟨label, BEq.rfl, asked⟩

/-- What two stable runs that ask for the same leave behind. -/
structure Concordant (left right : NFA) (leftDone rightDone : List Command) : Prop where
  leftRecorded : left.Recorded leftDone
  rightRecorded : right.Recorded rightDone
  markers : (left.epsilon == right.epsilon) = true
  same : SameRequests leftDone rightDone

namespace Concordant

variable {left right : NFA} {leftDone rightDone : List Command}
  (concordant : Concordant left right leftDone rightDone)
include concordant

theorem initial : (left.initial = none ∧ right.initial = none) ∨
    ∃ leftStart rightStart, left.initial = some leftStart ∧ right.initial = some rightStart ∧
      leftStart.name = rightStart.name := by
  have starts := concordant.leftRecorded.start.trans (concordant.same.start.trans concordant.rightRecorded.start.symm)
  cases leftStarted : left.initial <;> cases rightStarted : right.initial <;> simp_all

theorem finals : SameNames left.finals right.finals := by
  intro name
  rw [concordant.leftRecorded.final, concordant.rightRecorded.final, concordant.same.final]

theorem unmarked_iff (word : List Label) : Unmarked left.epsilon word ↔ Unmarked right.epsilon word := by
  simp only [Unmarked, BEq.congr_right concordant.markers]

variable {leftStart rightStart : State} (leftStarted : left.initial = some leftStart)
  (rightStarted : right.initial = some rightStart) (names : leftStart.name = rightStart.name)
include leftStarted rightStarted names

theorem sameNames {word : List Label} (unmarked : Unmarked left.epsilon word) :
    SameNames (left.follow (left.close [leftStart]) word) (right.follow (right.close [rightStart]) word) := by
  intro name
  rw [concordant.leftRecorded.exists_name_follow_iff leftStarted unmarked,
    concordant.rightRecorded.exists_name_follow_iff rightStarted ((concordant.unmarked_iff word).mp unmarked), names]
  exact ⟨concordant.same.path concordant.markers, concordant.same.symm.path (BEq.symm concordant.markers)⟩

theorem accept_eq (word : List Label) : left.accept word = right.accept word := by
  have leftSound := concordant.leftRecorded.regular.sound
  have rightSound := concordant.rightRecorded.regular.sound
  rcases unmarked_or_split left.epsilon word with unmarked | ⟨before, symbol, after, rfl, unmarked, marked⟩
  · have reached := concordant.sameNames leftStarted rightStarted names unmarked
    rw [NFA.accept_eq leftSound leftStarted unmarked,
      NFA.accept_eq rightSound rightStarted ((concordant.unmarked_iff word).mp unmarked),
      reached.isFinal_eq concordant.finals]
  · have rightMarked : (symbol == right.epsilon) = true := BEq.trans marked concordant.markers
    rw [accept_of_marked leftSound leftStarted unmarked marked,
      accept_of_marked rightSound rightStarted ((concordant.unmarked_iff before).mp unmarked) rightMarked]

section Built

variable {namer : Namer} {leftFound rightFound : List Composite}
  (leftCovers : left.Covers namer.name (left.close [leftStart]) leftFound)
  (rightCovers : right.Covers namer.name (right.close [rightStart]) rightFound)
include leftCovers rightCovers

theorem follow_eq {word : List Label} (unmarked : Unmarked left.epsilon word) :
    (left.assemble namer.name (left.close [leftStart]) leftFound).follow
        (left.assemble namer.name (left.close [leftStart]) leftFound).initial word =
      (right.assemble namer.name (right.close [rightStart]) rightFound).follow
        (right.assemble namer.name (right.close [rightStart]) rightFound).initial word := by
  have reached := concordant.sameNames leftStarted rightStarted names unmarked
  rw [concordant.leftRecorded.follow_built leftStarted unmarked leftCovers,
    concordant.rightRecorded.follow_built rightStarted ((concordant.unmarked_iff word).mp unmarked) rightCovers,
    reached.isEmpty_eq, reached.name_eq]

theorem isFinal_eq {word : List Label} (unmarked : Unmarked left.epsilon word) {state : Label}
    (path : (left.assemble namer.name (left.close [leftStart]) leftFound).follow
      (left.assemble namer.name (left.close [leftStart]) leftFound).initial word = some state) :
    (left.assemble namer.name (left.close [leftStart]) leftFound).isFinal state =
      (right.assemble namer.name (right.close [rightStart]) rightFound).isFinal state := by
  have reached := concordant.sameNames leftStarted rightStarted names unmarked
  rw [concordant.leftRecorded.follow_built leftStarted unmarked leftCovers] at path
  by_cases stuck : left.follow (left.close [leftStart]) word = []
  · simp [stuck] at path
  · have named : .text (namer.name ((left.follow (left.close [leftStart]) word).map State.name)) = state := by
      simpa [stuck] using path
    rw [← named, concordant.leftRecorded.isFinal_built leftStarted unmarked leftCovers stuck, reached.name_eq,
      concordant.rightRecorded.isFinal_built rightStarted ((concordant.unmarked_iff word).mp unmarked)
        rightCovers (fun empty => stuck (reached.eq_nil_iff.mpr empty)),
      reached.isFinal_eq concordant.finals]

end Built

theorem toDfa_beq (namer : Namer) : ∃ leftDfa rightDfa, left.toDfa namer.name = .ok leftDfa ∧
    right.toDfa namer.name = .ok rightDfa ∧ (leftDfa == rightDfa) = true := by
  have leftRegular := concordant.leftRecorded.regular
  have rightRegular := concordant.rightRecorded.regular
  obtain ⟨leftBuilt, leftCovers⟩ := toDfa_namer leftRegular.sound leftStarted namer
  obtain ⟨rightBuilt, rightCovers⟩ := toDfa_namer rightRegular.sound rightStarted namer
  have leftMade := regular_of_toDfa leftRegular concordant.leftRecorded.alphabet leftBuilt
  have rightMade := regular_of_toDfa rightRegular concordant.rightRecorded.alphabet rightBuilt
  refine ⟨_, _, leftBuilt, rightBuilt, DFA.beq_of_follow leftMade rightMade
    (accessible_assemble leftRegular leftCovers) (accessible_assemble rightRegular rightCovers)
    (fun word => ?_) fun word state path => ?_⟩
  · by_cases unmarked : Unmarked left.epsilon word
    · exact concordant.follow_eq leftStarted rightStarted names leftCovers rightCovers unmarked
    · -- a word with a marker in it leads nowhere in either
      have rightMarked : ¬ Unmarked right.epsilon word := fun clear =>
        unmarked ((concordant.unmarked_iff word).mpr clear)
      rw [leftMade.follow_of_marked unmarked, rightMade.follow_of_marked rightMarked]
  · have unmarked : Unmarked left.epsilon word := leftMade.unmarked_of_follow path
    exact concordant.isFinal_eq leftStarted rightStarted names leftCovers rightCovers unmarked path

end Concordant

/-- Stable runs that ask for the same, in whatever order, answer every word alike and give equal deterministic
automata. -/
theorem replay_order_independent {leftEpsilon rightEpsilon : Label} {leftSymbols rightSymbols : List Label}
    {leftFresh rightFresh : NFA} (leftCreated : create leftEpsilon leftSymbols .empty = .ok leftFresh)
    (rightCreated : create rightEpsilon rightSymbols .empty = .ok rightFresh)
    (markers : (leftEpsilon == rightEpsilon) = true) {leftCommands rightCommands : List Command}
    (leftStable : leftFresh.NameStable leftCommands) (rightStable : rightFresh.NameStable rightCommands)
    (same : SameRequests (leftFresh.performed leftCommands) (rightFresh.performed rightCommands)) :
    (∀ word, (leftFresh.replay leftCommands).accept word = (rightFresh.replay rightCommands).accept word) ∧
      ∀ namer : Namer,
        ((leftFresh.replay leftCommands).toDfa namer.name = .error .noStart ∧
          (rightFresh.replay rightCommands).toDfa namer.name = .error .noStart) ∨
        ∃ leftDfa rightDfa, (leftFresh.replay leftCommands).toDfa namer.name = .ok leftDfa ∧
          (rightFresh.replay rightCommands).toDfa namer.name = .ok rightDfa ∧
          (leftDfa == rightDfa) = true := by
  have concordant : Concordant (leftFresh.replay leftCommands) (rightFresh.replay rightCommands)
      (leftFresh.performed leftCommands) (rightFresh.performed rightCommands) :=
    ⟨recorded_replay leftCreated leftStable, recorded_replay rightCreated rightStable, by
      rw [epsilon_replay leftCreated, epsilon_replay rightCreated]
      exact markers, same⟩
  rcases concordant.initial with ⟨leftNone, rightNone⟩ |
    ⟨leftStart, rightStart, leftStarted, rightStarted, names⟩
  · refine ⟨fun word => ?_, fun namer => .inl ⟨?_, ?_⟩⟩
    · rw [accept_of_unstarted leftNone, accept_of_unstarted rightNone]
    · exact toDfa_of_unstarted leftNone namer.name
    · exact toDfa_of_unstarted rightNone namer.name
  · exact ⟨concordant.accept_eq leftStarted rightStarted names,
      fun namer => .inr (concordant.toDfa_beq leftStarted rightStarted names namer)⟩

/-- The requests of a run with a cycle of silent steps, in another order and with more declarations. -/
def shuffledCycle : List Command := [.addSymbol (.text "z"), .addState (.text "q"), .setStart (.text "x"),
  .addFinal (.text "f"), .addFinal (.text ""), .addState (.text "s"), .addFinal (.text "s"),
  .setStart (.text "s"), .addTransition (.text "q") (.text "a") (.text "f"),
  .addTransition (.text "q") standardEpsilon (.text "s"), .addTransition (.text "q") (.text "a") (.text "f"),
  .addTransition (.text "s") standardEpsilon (.text "q"), .addState (.text "late")]

theorem nameStable_shuffledCycle : (empty standardEpsilon .empty).NameStable shuffledCycle :=
  @nameStable_append _ (shuffledCycle.take 8) (shuffledCycle.drop 8) (by simp [shuffledCycle])
    (by simp [shuffledCycle]) (by simp [shuffledCycle])

theorem sameRequests_shuffledCycle : SameRequests ((empty standardEpsilon .empty).performed silentCycle)
    ((empty standardEpsilon .empty).performed shuffledCycle) := by
  have first : (empty standardEpsilon .empty).performed silentCycle = silentCycle.take 7 := by rfl
  have second : (empty standardEpsilon .empty).performed shuffledCycle =
      shuffledCycle.take 4 ++ shuffledCycle.drop 5 := by rfl
  rw [first, second]
  refine ⟨by rfl, fun name => ?_, fun source label target => exists_congr fun spelled => ?_⟩
  · simp [silentCycle, shuffledCycle, or_comm]
  · refine and_congr_right fun _ => ?_
    simp [Asked, silentCycle, shuffledCycle, or_comm, or_left_comm]

theorem replay_order_independent_shuffledCycle :
    create standardEpsilon [] .empty = .ok (empty standardEpsilon .empty) ∧
      (standardEpsilon == standardEpsilon) = true ∧
      (empty standardEpsilon .empty).NameStable silentCycle ∧
      (empty standardEpsilon .empty).NameStable shuffledCycle ∧
      SameRequests ((empty standardEpsilon .empty).performed silentCycle)
        ((empty standardEpsilon .empty).performed shuffledCycle) ∧
      ((empty standardEpsilon .empty).replay shuffledCycle).accept [.text "a"] = .ok true := by
  have created : create standardEpsilon [] .empty = .ok (empty standardEpsilon .empty) := rfl
  have accepts : ((empty standardEpsilon .empty).replay silentCycle).accept [.text "a"] = .ok true := by rfl
  have alike := (replay_order_independent created created BEq.rfl nameStable_silentCycle
    nameStable_shuffledCycle sameRequests_shuffledCycle).1 [.text "a"]
  exact ⟨created, BEq.rfl, nameStable_silentCycle, nameStable_shuffledCycle, sameRequests_shuffledCycle,
    alike.symm.trans accepts⟩

end NFA

end FiniteAutomata
