import FiniteAutomata.DFA.Command
import FiniteAutomata.Proofs.Tables

set_option autoImplicit false

/-!
What any run of calls on a deterministic automaton keeps: no two states and no two moves on a symbol are equal,
moves lead to states and read symbols of the alphabet, and final states are states.
-/

namespace FiniteAutomata

namespace DFA

/-- A node whose moves lead to states of the automaton on symbols of its alphabet. -/
structure Fits (dfa : DFA) (node : Node) : Prop where
  members : Apart node.members
  moves : Apart node.moves.keys
  leads : ∀ symbol target, node.moves.get? symbol = some target → (symbol == dfa.epsilon) = false ∧
    dfa.alphabet.contains symbol = true ∧ dfa.hasState target = true

structure Regular (dfa : DFA) : Prop where
  states : Apart dfa.states.keys
  nodes : ∀ state node, dfa.states.get? state = some node → dfa.Fits node
  finals : Apart dfa.finals
  final : ∀ state, dfa.isFinal state = true → dfa.hasState state = true
  alphabet : Apart dfa.alphabet
  real : ∀ symbol ∈ dfa.alphabet, (symbol == dfa.epsilon) = false

def Command.Adds (state : Label) : Command → Prop
  | .addState name _ | .addFinal name _ => (name == state) = true
  | .addSymbol _ | .addTransition _ _ _ => False

/-- One of the calls added the state. -/
def Added (commands : List Command) (state : Label) : Prop :=
  ∃ command ∈ commands, command.Adds state

variable {dfa changed : DFA}

theorem hasState_iff (dfa : DFA) (state : Label) :
    dfa.hasState state = true ↔ ∃ known ∈ dfa.states.keys, (known == state) = true :=
  dfa.states.contains_iff state

theorem hasState_congr {state other : Label} (same : (state == other) = true) :
    dfa.hasState state = dfa.hasState other := by
  simp only [hasState, Table.contains, dfa.states.get?_congr same]

theorem hasState_iff_exists_node (dfa : DFA) (state : Label) :
    dfa.hasState state = true ↔ ∃ node, dfa.states.get? state = some node := by
  rw [hasState, Table.contains, Option.isSome_iff_exists]

theorem isFinal_congr (dfa : DFA) {state other : Label} (same : (state == other) = true) :
    dfa.isFinal state = dfa.isFinal other := by
  rw [isFinal, isFinal, Bool.eq_iff_iff, List.contains_iff_exists_mem_beq, List.contains_iff_exists_mem_beq]
  exact exists_congr fun final => and_congr_right fun _ => by rw [BEq.congr_left same]

theorem hasState_addState (dfa : DFA) (name : Label) (members : List Label) (state : Label) :
    (dfa.addState name members).hasState state = (dfa.hasState state || name == state) := by
  simp only [hasState, Table.contains_eq_contains_keys, addState, Table.keys_putNew, contains_addNew]
  rw [BEq.comm]

theorem hasState_addFinal (dfa : DFA) (name : Label) (members : List Label) (state : Label) :
    (dfa.addFinal name members).hasState state = (dfa.hasState state || name == state) :=
  hasState_addState dfa name members state

theorem isFinal_addFinal (dfa : DFA) (name : Label) (members : List Label) (state : Label) :
    (dfa.addFinal name members).isFinal state = (dfa.isFinal state || name == state) := by
  simp only [isFinal, addFinal, contains_addNew]
  rw [BEq.comm]

theorem Fits.mono {node : Node} (fits : dfa.Fits node) (epsilon : changed.epsilon = dfa.epsilon)
    (alphabet : ∀ symbol, dfa.alphabet.contains symbol = true → changed.alphabet.contains symbol = true)
    (states : ∀ state, dfa.hasState state = true → changed.hasState state = true) : changed.Fits node where
  members := fits.members
  moves := fits.moves
  leads symbol target found := by
    obtain ⟨real, known, here⟩ := fits.leads symbol target found
    exact ⟨by rw [epsilon]; exact real, alphabet symbol known, states target here⟩

theorem regular_empty (initial epsilon : Label) : (empty initial epsilon).Regular := by
  constructor <;> simp [empty, Apart, Table.keys, Table.empty, isFinal, Table.get?]

theorem Regular.addState (regular : dfa.Regular) (name : Label) (members : List Label) :
    (dfa.addState name members).Regular where
  states := by
    simp only [DFA.addState, Table.keys_putNew]
    exact apart_addNew regular.states name
  nodes state node found := by
    have wider : ∀ other, dfa.hasState other = true → (dfa.addState name members).hasState other = true :=
      fun other known => by simp [hasState_addState, known]
    simp only [DFA.addState, Table.get?_putNew] at found
    split at found
    · obtain rfl := Option.some.inj found
      exact ⟨apart_foldl_addNew members List.Pairwise.nil, List.Pairwise.nil, by simp⟩
    · exact (regular.nodes state node found).mono rfl (fun _ known => known) wider
  finals := regular.finals
  final state final := by
    rw [hasState_addState, regular.final state final, Bool.true_or]
  alphabet := regular.alphabet
  real := regular.real

theorem Regular.addFinal (regular : dfa.Regular) (name : Label) (members : List Label) :
    (dfa.addFinal name members).Regular := by
  have added := regular.addState name members
  refine ⟨added.states, fun state node found => ?_, apart_addNew regular.finals name, ?_, added.alphabet,
    added.real⟩
  · exact (added.nodes state node found).mono rfl (fun _ known => known) fun _ known => known
  · intro state final
    rw [isFinal_addFinal, Bool.or_eq_true] at final
    rw [hasState_addFinal]
    rcases final with earlier | same
    · rw [regular.final state earlier, Bool.true_or]
    · rw [same, Bool.or_true]

theorem addSymbol_eq_ok_iff (dfa changed : DFA) (symbol : Label) : dfa.addSymbol symbol = .ok changed ↔
    (symbol == dfa.epsilon) = false ∧ { dfa with alphabet := addNew dfa.alphabet symbol } = changed := by
  by_cases silent : (symbol == dfa.epsilon) = true <;>
    simp [addSymbol, checkSymbol, silent, bind, Except.bind, pure, Except.pure]

/-- The automaton with a move added, whatever it replaces. -/
def moved (dfa : DFA) (source symbol target : Label) : DFA :=
  { dfa with
    states := dfa.states.modify source fun node => { node with moves := node.moves.put symbol target }
    alphabet := addNew dfa.alphabet symbol }

theorem addTransition_eq_ok_iff (dfa changed : DFA) (source symbol target : Label) :
    dfa.addTransition source symbol target = .ok changed ↔ ((symbol == dfa.epsilon) = false ∧
      dfa.hasState source = true ∧ dfa.hasState target = true) ∧ dfa.moved source symbol target = changed := by
  by_cases silent : (symbol == dfa.epsilon) = true <;>
    by_cases sourceKnown : dfa.hasState source = true <;>
      by_cases targetKnown : dfa.hasState target = true <;>
        simp [addTransition, checkSymbol, checkState, silent, sourceKnown, targetKnown, moved, bind,
          Except.bind, pure, Except.pure]

theorem hasState_moved (dfa : DFA) (source symbol target state : Label) :
    (dfa.moved source symbol target).hasState state = dfa.hasState state := by
  simp [hasState, moved, Table.contains_eq_contains_keys]

theorem Regular.addSymbol {symbol : Label} (regular : dfa.Regular)
    (success : dfa.addSymbol symbol = .ok changed) : changed.Regular := by
  obtain ⟨real, rfl⟩ := (addSymbol_eq_ok_iff ..).mp success
  refine ⟨regular.states, fun state node found => ?_, regular.finals, regular.final,
    apart_addNew regular.alphabet symbol, fun other present => ?_⟩
  · refine (regular.nodes state node found).mono rfl (fun other known => ?_) fun _ known => known
    simp [contains_addNew, known]
  · rcases mem_addNew present with earlier | rfl
    · exact regular.real other earlier
    · exact real

theorem Regular.addTransition {source symbol target : Label} (regular : dfa.Regular)
    (success : dfa.addTransition source symbol target = .ok changed) : changed.Regular := by
  obtain ⟨⟨real, -, targetKnown⟩, rfl⟩ := (addTransition_eq_ok_iff ..).mp success
  have kept : ∀ node, dfa.Fits node → (dfa.moved source symbol target).Fits node := by
    refine fun node fits => fits.mono rfl (fun other known => ?_) fun state known => ?_
    · simp [moved, contains_addNew, known]
    · rw [hasState_moved, known]
  refine ⟨?_, ?_, regular.finals, ?_, apart_addNew regular.alphabet symbol, ?_⟩
  · simpa [moved] using regular.states
  · intro state node found
    simp only [moved, Table.get?_modify] at found
    split at found
    · obtain ⟨old, known, rfl⟩ := Option.map_eq_some_iff.mp found
      have fits := kept old (regular.nodes state old known)
      refine ⟨fits.members, ?_, fun other goal leads => ?_⟩
      · rw [Table.keys_put]
        exact apart_addNew fits.moves symbol
      · rw [Table.get?_put] at leads
        split at leads
        · rename_i same
          obtain rfl := Option.some.inj leads
          refine ⟨(BEq.congr_left same).symm.trans real, ?_, ?_⟩
          · simp [moved, contains_addNew, BEq.symm same]
          · rw [hasState_moved, targetKnown]
        · exact fits.leads other goal leads
    · exact kept node (regular.nodes state node found)
  · intro state final
    rw [hasState_moved]
    exact regular.final state final
  · intro other present
    rcases mem_addNew present with earlier | rfl
    · exact regular.real other earlier
    · exact real

theorem Regular.perform {command : Command} (regular : dfa.Regular)
    (success : dfa.perform command = .ok changed) : changed.Regular := by
  cases command with
  | addState name members => exact Except.ok.inj success ▸ regular.addState name members
  | addFinal name members => exact Except.ok.inj success ▸ regular.addFinal name members
  | addSymbol symbol => exact regular.addSymbol success
  | addTransition source symbol target => exact regular.addTransition success

theorem replay_keeps {P : DFA → Prop}
    (step : ∀ before command after, P before → before.perform command = .ok after → P after)
    (holds : P dfa) (commands : List Command) : P (dfa.replay commands) := by
  induction commands generalizing dfa with
  | nil => exact holds
  | cons command rest ih =>
      apply ih
      unfold attempt
      split
      · rename_i after success
        exact step dfa command after holds success
      · exact holds

theorem Regular.replay (regular : dfa.Regular) (commands : List Command) : (dfa.replay commands).Regular :=
  replay_keeps (fun _ _ _ before success => before.perform success) regular commands

theorem frame_perform {command : Command} (success : dfa.perform command = .ok changed) :
    changed.initial = dfa.initial ∧ changed.epsilon = dfa.epsilon := by
  cases command with
  | addState | addFinal =>
      obtain rfl := Except.ok.inj success
      exact ⟨rfl, rfl⟩
  | addSymbol symbol =>
      obtain ⟨-, rfl⟩ := (addSymbol_eq_ok_iff ..).mp success
      exact ⟨rfl, rfl⟩
  | addTransition source symbol target =>
      obtain ⟨-, rfl⟩ := (addTransition_eq_ok_iff ..).mp success
      exact ⟨rfl, rfl⟩

theorem frame_replay (dfa : DFA) (commands : List Command) :
    (dfa.replay commands).initial = dfa.initial ∧ (dfa.replay commands).epsilon = dfa.epsilon := by
  refine replay_keeps (P := fun after => after.initial = dfa.initial ∧ after.epsilon = dfa.epsilon)
    (fun before command after same success => ?_) ⟨rfl, rfl⟩ commands
  obtain ⟨initial, epsilon⟩ := frame_perform success
  exact ⟨initial.trans same.1, epsilon.trans same.2⟩

theorem hasState_attempt (dfa : DFA) (command : Command) (state : Label) :
    (dfa.attempt command).hasState state = true ↔ dfa.hasState state = true ∨ command.Adds state := by
  cases command with
  | addState name members =>
      simp [attempt, DFA.perform, Command.Adds, hasState_addState]
  | addFinal name members =>
      simp [attempt, DFA.perform, Command.Adds, hasState_addFinal]
  | addSymbol symbol =>
      simp only [attempt, DFA.perform, Command.Adds, or_false]
      split
      · rename_i changed success
        obtain ⟨-, rfl⟩ := (addSymbol_eq_ok_iff ..).mp success
        rfl
      · rfl
  | addTransition source symbol target =>
      simp only [attempt, DFA.perform, Command.Adds, or_false]
      split
      · rename_i changed success
        obtain ⟨-, rfl⟩ := (addTransition_eq_ok_iff ..).mp success
        rw [hasState_moved]
      · rfl

theorem hasState_replay (dfa : DFA) (commands : List Command) (state : Label) :
    (dfa.replay commands).hasState state = true ↔ dfa.hasState state = true ∨ Added commands state := by
  induction commands generalizing dfa with
  | nil => simp [Added]
  | cons command rest ih =>
      have step : dfa.replay (command :: rest) = (dfa.attempt command).replay rest := rfl
      simp [step, ih, hasState_attempt, Added, or_assoc]

theorem hasState_replay_empty (initial epsilon : Label) (commands : List Command) (state : Label) :
    ((empty initial epsilon).replay commands).hasState state = true ↔ Added commands state := by
  rw [hasState_replay]
  simp [empty, hasState, Table.contains]

section Moves

/-- A move leads from one state to the other, up to equality. -/
def Moves (dfa : DFA) (source symbol target : Label) : Prop :=
  ∃ found, dfa.target? source symbol = some found ∧ (found == target) = true

theorem target?_congr (dfa : DFA) {source other symbol label : Label} (same : (source == other) = true)
    (spelled : (symbol == label) = true) : dfa.target? source symbol = dfa.target? other label := by
  rw [target?, target?, moves, moves, dfa.states.get?_congr same, Table.get?_congr _ spelled]

theorem target?_eq_some_iff (dfa : DFA) (source symbol target : Label) :
    dfa.target? source symbol = some target ↔
      ∃ node, dfa.states.get? source = some node ∧ node.moves.get? symbol = some target := by
  cases known : dfa.states.get? source with
  | none => simp [target?, moves, known]
  | some node => simp [target?, moves, known]

theorem Regular.target {source symbol target : Label} (regular : dfa.Regular)
    (leads : dfa.target? source symbol = some target) : dfa.hasState source = true ∧
      (symbol == dfa.epsilon) = false ∧ dfa.alphabet.contains symbol = true ∧ dfa.hasState target = true := by
  obtain ⟨node, known, found⟩ := (target?_eq_some_iff ..).mp leads
  exact ⟨by simp [hasState, Table.contains, known], (regular.nodes source node known).leads symbol target found⟩

theorem moves_congr (dfa : DFA) {source origin symbol target goal : Label} (begins : (source == origin) = true)
    (ends : (target == goal) = true) : dfa.Moves source symbol target ↔ dfa.Moves origin symbol goal := by
  simp only [Moves, dfa.target?_congr begins (BEq.rfl : (symbol == symbol) = true)]
  exact exists_congr fun found => and_congr_right fun _ => by rw [BEq.congr_right ends]

theorem Regular.moves_known {source symbol target : Label} (regular : dfa.Regular)
    (moved : dfa.Moves source symbol target) :
    dfa.hasState source = true ∧ dfa.hasState target = true := by
  obtain ⟨found, leads, same⟩ := moved
  obtain ⟨begins, -, -, ends⟩ := regular.target leads
  exact ⟨begins, by rwa [← hasState_congr same]⟩

end Moves

end DFA

end FiniteAutomata
