import FiniteAutomata.DFA.Equality
import FiniteAutomata.Proofs.DFA.Requests

set_option autoImplicit false

/-!
Equality of deterministic automata. Automata are equal if they have equal starts, the same states, the same final
states and the same table of transitions; nothing else counts. Equal automata answer alike on every word that has
neither's marker in it.
-/

namespace FiniteAutomata

namespace DFA

/-- Two automata with the same start, states, final states and moves, up to equality of labels. -/
structure Alike (left right : DFA) : Prop where
  initial : (left.initial == right.initial) = true
  states : ∀ state, left.hasState state = right.hasState state
  finals : ∀ state, left.isFinal state = right.isFinal state
  moves : ∀ source symbol target, left.Moves source symbol target ↔ right.Moves source symbol target

variable {left right : DFA}

theorem sameMembers_keys_iff (left right : DFA) : sameMembers left.states.keys right.states.keys = true ↔
    ∀ state, left.hasState state = right.hasState state := by
  simp only [sameMembers_iff, hasState, Table.contains_eq_contains_keys]

theorem sameMembers_finals_iff (left right : DFA) : sameMembers left.finals right.finals = true ↔
    ∀ state, left.isFinal state = right.isFinal state :=
  sameMembers_iff ..

theorem moves_iff_holds {dfa : DFA} {source : Label} {node : Node} (known : dfa.states.get? source = some node)
    (symbol target : Label) : dfa.Moves source symbol target ↔ node.moves.Holds symbol target := by
  simp [Moves, Table.Holds, DFA.target?, DFA.moves, known]

theorem Regular.moves_iff_table {dfa : DFA} (regular : dfa.Regular) (source symbol target : Label) :
    dfa.Moves source symbol target ↔ dfa.table.Holds (source, symbol) target := by
  rw [Moves, Table.Holds, regular.get?_table]

section Comparing

variable (leftRegular : left.Regular) (rightRegular : right.Regular)
include leftRegular rightRegular

theorem nodes_within_iff (states : ∀ state, left.hasState state = true → right.hasState state = true) :
    left.states.within (fun node other => node.moves.same (· == ·) other.moves) right.states = true ↔
      ∀ source, left.hasState source = true → ∀ symbol target,
        left.Moves source symbol target ↔ right.Moves source symbol target := by
  have node {source : Label} {here there : Node} (known : left.states.get? source = some here)
      (found : right.states.get? source = some there) : here.moves.same (· == ·) there.moves = true ↔
        ∀ symbol target, left.Moves source symbol target ↔ right.Moves source symbol target := by
    simp only [moves_iff_holds known, moves_iff_holds found]
    exact Table.same_beq_iff (leftRegular.nodes _ _ known).moves (rightRegular.nodes _ _ found).moves
  rw [Table.within_iff leftRegular.states]
  constructor
  · intro agree source present
    obtain ⟨here, known⟩ := (hasState_iff_exists_node ..).mp present
    obtain ⟨there, found, same⟩ := agree source here known
    exact (node known found).mp same
  · intro agree source here known
    have present := (hasState_iff_exists_node ..).mpr ⟨here, known⟩
    obtain ⟨there, found⟩ := (hasState_iff_exists_node ..).mp (states source present)
    exact ⟨there, found, (node known found).mpr (agree source present)⟩

theorem beq_iff_alike : (left == right) = true ↔ left.Alike right := by
  have unfolded : (left == right) = (left.initial == right.initial && sameMembers left.finals right.finals &&
      sameMembers left.states.keys right.states.keys && left.states.same
        (fun node other => node.moves.same (· == ·) other.moves) right.states) := rfl
  rw [unfolded, Table.same]
  simp only [Bool.and_eq_true, sameMembers_keys_iff, sameMembers_finals_iff]
  constructor
  · rintro ⟨⟨⟨initial, finals⟩, states⟩, forth, -⟩
    have moves := (nodes_within_iff leftRegular rightRegular fun state here => states state ▸ here).mp forth
    refine ⟨initial, states, finals, fun source symbol target => ?_⟩
    by_cases begins : left.hasState source = true
    · exact moves source begins symbol target
    · -- what is no state has no moves
      exact iff_of_false (fun moved => begins (leftRegular.moves_known moved).1) fun moved =>
        begins ((states source).trans (rightRegular.moves_known moved).1)
  · intro alike
    refine ⟨⟨⟨alike.initial, alike.finals⟩, alike.states⟩, ?_, ?_⟩
    · refine (nodes_within_iff leftRegular rightRegular fun state here => alike.states state ▸ here).mpr ?_
      exact fun source _ symbol target => alike.moves source symbol target
    · refine (nodes_within_iff rightRegular leftRegular fun state here => (alike.states state).trans here).mpr ?_
      exact fun source _ symbol target => (alike.moves source symbol target).symm

/-- The table of transitions tells as much as the moves, row by row, of each state. -/
theorem same_table_iff : left.table.same (· == ·) right.table = true ↔
    ∀ source symbol target, left.Moves source symbol target ↔ right.Moves source symbol target := by
  rw [Table.same_beq_iff leftRegular.apart_table rightRegular.apart_table]
  simp only [leftRegular.moves_iff_table, rightRegular.moves_iff_table, Prod.forall]

end Comparing

namespace Alike

variable (alike : left.Alike right)
include alike

theorem target? {state goal : Label} (same : (state == goal) = true) (symbol : Label) :
    ((left.target? state symbol).getD .null == (right.target? goal symbol).getD .null) = true := by
  have agree (target : Label) : left.Moves state symbol target ↔ right.Moves goal symbol target :=
    (alike.moves state symbol target).trans (right.moves_congr same BEq.rfl)
  cases leads : left.target? state symbol with
  | some target =>
      obtain ⟨reached, arrives, equal⟩ := (agree target).mp ⟨target, leads, BEq.rfl⟩
      simpa [arrives] using BEq.symm equal
  | none =>
      cases arrives : right.target? goal symbol with
      | none => exact BEq.rfl
      | some reached =>
          obtain ⟨target, missing, -⟩ := (agree reached).mpr ⟨reached, arrives, BEq.rfl⟩
          simp [leads] at missing

/-- Reading goes side by side: where one of them is stuck, so is the other, at once. -/
theorem read {word : List Label} (leftUnmarked : Unmarked left.epsilon word)
    (rightUnmarked : Unmarked right.epsilon word) {state goal : Label} (same : (state == goal) = true) :
    ∃ last final, left.machine.read state word = .ok last ∧ right.machine.read goal word = .ok final ∧
      (last == final) = true := by
  induction word generalizing state goal with
  | nil => exact ⟨state, goal, rfl, rfl, same⟩
  | cons symbol rest ih =>
      obtain ⟨leftReal, leftLater⟩ := unmarked_cons.mp leftUnmarked
      obtain ⟨rightReal, rightLater⟩ := unmarked_cons.mp rightUnmarked
      have leftStep : left.machine.next state symbol = _ := next_of_real state leftReal
      have rightStep : right.machine.next goal symbol = _ := next_of_real goal rightReal
      rw [Machine.read_cons_ok _ leftStep, Machine.read_cons_ok _ rightStep]
      have reached := alike.target? same symbol
      have stuck : left.machine.isStuck _ = right.machine.isStuck _ := isNull_congr reached
      rw [stuck]
      split
      · exact ⟨_, _, rfl, rfl, reached⟩
      · exact ih leftLater rightLater reached

theorem exists_accept {word : List Label} (leftUnmarked : Unmarked left.epsilon word)
    (rightUnmarked : Unmarked right.epsilon word) :
    ∃ verdict, left.accept word = .ok verdict ∧ right.accept word = .ok verdict := by
  obtain ⟨last, final, leftRead, rightRead, same⟩ := alike.read leftUnmarked rightUnmarked alike.initial
  refine ⟨left.isFinal last, accept_of_read leftRead, ?_⟩
  rw [accept_of_read rightRead, alike.finals, right.isFinal_congr same]

end Alike

/-- Which automata are equal to one another, and what equal automata answer. -/
structure Compares (left right : DFA) : Prop where
  equal : (left == right) = true ↔ (left.initial == right.initial) = true ∧
    sameMembers left.states.keys right.states.keys = true ∧ sameMembers left.finals right.finals = true ∧
      left.table.same (· == ·) right.table = true
  answers : (left == right) = true → ∀ word, Unmarked left.epsilon word → Unmarked right.epsilon word →
    ∃ verdict, left.accept word = .ok verdict ∧ right.accept word = .ok verdict

theorem Regular.compares (leftRegular : left.Regular) (rightRegular : right.Regular) : left.Compares right where
  equal := by
    rw [beq_iff_alike leftRegular rightRegular, sameMembers_keys_iff, sameMembers_finals_iff,
      same_table_iff leftRegular rightRegular]
    exact ⟨fun alike => ⟨alike.initial, alike.states, alike.finals, alike.moves⟩,
      fun ⟨initial, states, finals, moves⟩ => ⟨initial, states, finals, moves⟩⟩
  answers same _ leftUnmarked rightUnmarked :=
    ((beq_iff_alike leftRegular rightRegular).mp same).exists_accept leftUnmarked rightUnmarked

section Runs

variable (initial epsilon : Label) (commands : List Command)

theorem moves_replay_iff (source symbol target : Label) :
    ((empty initial epsilon).replay commands).Moves source symbol target ↔
      ∃ found, latestTarget ((empty initial epsilon).performed commands) source symbol = some found ∧
        (found == target) = true := by
  rw [Moves, target?_replay]

/-- Two runs come to the same by their calls: by the start, the names that they add and those that they make final, and
the latest move that was asked for from each state on each symbol. -/
structure SameOutcome (start epsilon : Label) (calls : List Command) (other marker : Label)
    (others : List Command) : Prop where
  starts : (start == other) = true
  states : ∀ state, Added calls state ↔ Added others state
  finals : ∀ state, (calls.filterMap Command.final?).contains state =
    (others.filterMap Command.final?).contains state
  targets : ∀ source symbol, (latestTarget ((empty start epsilon).performed calls) source symbol ==
    latestTarget ((empty other marker).performed others) source symbol) = true

theorem target_beq_iff (first second : Option Label) : (first == second) = true ↔
    ∀ target, (∃ found, first = some found ∧ (found == target) = true) ↔
      ∃ found, second = some found ∧ (found == target) = true := by
  cases first with
  | none =>
      cases second with
      | none => simp
      | some other => simpa using ⟨other, BEq.rfl⟩
  | some found =>
      cases second with
      | none => simpa using ⟨found, BEq.rfl⟩
      | some other =>
          simp only [Option.some_beq_some, Option.some.injEq, exists_eq_left']
          exact ⟨fun same target => by rw [BEq.congr_left same], fun agree => (agree other).mpr BEq.rfl⟩

theorem beq_replay_iff (other marker : Label) (others : List Command) :
    ((empty initial epsilon).replay commands == (empty other marker).replay others) = true ↔
      SameOutcome initial epsilon commands other marker others := by
  have left := (regular_empty initial epsilon).replay commands
  have right := (regular_empty other marker).replay others
  have states (state : Label) : ((empty initial epsilon).replay commands).hasState state =
      ((empty other marker).replay others).hasState state ↔ (Added commands state ↔ Added others state) := by
    rw [Bool.eq_iff_iff, hasState_replay_empty, hasState_replay_empty]
  have finals (state : Label) := isFinal_replay initial epsilon commands state
  have otherFinals (state : Label) := isFinal_replay other marker others state
  rw [beq_iff_alike left right]
  constructor
  · intro alike
    refine ⟨?_, fun state => (states state).mp (alike.states state), fun state => ?_, fun source symbol => ?_⟩
    · simpa [(frame_replay _ _).1, empty] using alike.initial
    · rw [← finals, ← otherFinals, alike.finals]
    · rw [target_beq_iff]
      intro target
      rw [← moves_replay_iff, ← moves_replay_iff, alike.moves]
  · intro same
    refine ⟨?_, fun state => (states state).mpr (same.states state), fun state => ?_, fun source symbol target => ?_⟩
    · simpa [(frame_replay _ _).1, empty] using same.starts
    · rw [finals, otherFinals, same.finals]
    · rw [moves_replay_iff, moves_replay_iff]
      exact (target_beq_iff ..).mp (same.targets source symbol) target

end Runs

/-- After any two runs the automata are equal if and only if their starts, states, final states and tables of
transitions are, which the calls tell whatever their order, members and symbols that are only declared; and equal
automata answer alike. -/
theorem compares_replay (initial epsilon : Label) (commands : List Command) (other marker : Label)
    (others : List Command) :
    ((empty initial epsilon).replay commands).Compares ((empty other marker).replay others) ∧
      (((empty initial epsilon).replay commands == (empty other marker).replay others) = true ↔
        SameOutcome initial epsilon commands other marker others) :=
  ⟨((regular_empty initial epsilon).replay commands).compares ((regular_empty other marker).replay others),
    beq_replay_iff initial epsilon commands other marker others⟩

/-- A run whose only move leads to null, which is final. -/
def leadsToNull : List Command := [.addState (.int 1) [.text "p"], .addFinal .null [], .addSymbol (.text "z"),
  .addTransition (.truth true) (.text "a") .null]

/-- A run of other calls, with another marker, that makes an equal automaton. -/
def replacesMove : List Command := [.addState .null [], .addState (.truth true) [], .addFinal .null [.text "q"],
  .addTransition (.int 1) (.text "a") (.int 1), .addTransition (.int 1) (.text "z") .null,
  .addTransition (.truth true) (.text "a") .null]

theorem compares_replay_leadsToNull :
    ((empty (.truth true) (.text "e")).replay leadsToNull == (empty (.int 1) (.text "z")).replay replacesMove) =
      true ∧
    Unmarked (.text "e") [.text "a", .text "b"] ∧ Unmarked (.text "z") [.text "a", .text "b"] ∧
    ∃ verdict, ((empty (.truth true) (.text "e")).replay leadsToNull).accept [.text "a", .text "b"] = .ok verdict ∧
      ((empty (.int 1) (.text "z")).replay replacesMove).accept [.text "a", .text "b"] = .ok verdict := by
  have unmarked (marker : String) (other : marker = "e" ∨ marker = "z") :
      Unmarked (.text marker) [.text "a", .text "b"] := by
    rcases other with rfl | rfl <;> simp [Unmarked]
  obtain ⟨compares, -⟩ := compares_replay (.truth true) (.text "e") leadsToNull (.int 1) (.text "z") replacesMove
  have equal : ((empty (.truth true) (.text "e")).replay leadsToNull ==
      (empty (.int 1) (.text "z")).replay replacesMove) = true := by rfl
  have left := unmarked "e" (.inl rfl)
  have right := unmarked "z" (.inr rfl)
  exact ⟨equal, left, right, compares.answers equal _ left right⟩

end DFA

end FiniteAutomata
