import FiniteAutomata.Proofs.DFA.Canonical
import FiniteAutomata.Proofs.NFA.Simulation

set_option autoImplicit false

/-!
What a stable run leaves behind, told by the calls that were performed: the latest start, the final states, and the
states after a word, which the transitions that were asked for lead to.
-/

namespace FiniteAutomata

namespace NFA

/-- The name that a call gives to the start. -/
def Command.start? : Command → Option Label
  | .setStart name => some name
  | _ => none

def latestStart (done : List Command) : Option Label :=
  (done.filterMap Command.start?).getLast?

theorem latestStart_cons {name : Label} {rest : List Command} (only : ∀ other, .setStart other ∉ rest) :
    latestStart (.setStart name :: rest) = some name := by
  have others : rest.filterMap Command.start? = [] := by
    refine List.filterMap_eq_nil_iff.mpr fun command present => ?_
    cases command with
    | setStart other => exact absurd present (only other)
    | addState | addFinal | addSymbol | addTransition => rfl
  simp [latestStart, Command.start?, others]

theorem initial_replay {epsilon : Label} {symbols : List Label} {fresh : NFA}
    (created : create epsilon symbols .empty = .ok fresh) (commands : List Command) :
    (fresh.replay commands).initial.map (fun state => .text state.name) =
      latestStart (fresh.performed commands) := by
  have none : fresh.initial = none := by rw [eq_of_create created]; rfl
  refine @replay_induction fresh (fun reached done =>
    reached.initial.map (fun state => .text state.name) = latestStart done) (by simp [none, latestStart])
    commands ?_
  intro before command after changed split earlier success
  cases effect_of_perform success with
  | setStart text filled => simp [latestStart, Command.start?, Graph.born]
  | addState | addFinal | addSymbol | addTransition => simpa [latestStart, Command.start?] using earlier

theorem mem_ordinary_replay {epsilon : Label} {symbols : List Label} {fresh : NFA}
    (created : create epsilon symbols .empty = .ok fresh) (commands : List Command) (name : String) :
    (∃ state ∈ (fresh.replay commands).ordinary, state.name = name) ↔
      .addState (.text name) ∈ fresh.performed commands := by
  have none : fresh.ordinary = [] := by rw [eq_of_create created]; rfl
  refine @replay_induction fresh (fun reached done =>
    (∃ state ∈ reached.ordinary, state.name = name) ↔ .addState (.text name) ∈ done) ?_ commands ?_
  · simp [none]
  intro _ _ _ _ _ earlier success
  cases effect_of_perform success with
  | addState text filled =>
      rw [exists_name_addNew, earlier, List.mem_append]
      simp [Graph.born, eq_comm]
  | setStart | addFinal | addSymbol | addTransition =>
      rw [List.mem_append, ← earlier]
      simp

/-- The names that stand for a state are those of the latest start and of the states that were added. -/
theorem isSome_find?_replay {epsilon : Label} {symbols : List Label} {fresh : NFA}
    (created : create epsilon symbols .empty = .ok fresh) (commands : List Command) (name : String) :
    ((fresh.replay commands).find? (.text name)).isSome = true ↔
      latestStart (fresh.performed commands) = some (.text name) ∨
        .addState (.text name) ∈ fresh.performed commands ∨
        .addFinal (.text name) ∈ fresh.performed commands := by
  rw [← initial_replay created commands, ← mem_ordinary_replay created commands,
    ← mem_finals_replay created commands]
  simp only [find?, List.find?_isSome, Label.text_beq_iff, declared, List.mem_append, or_and_right, exists_or]
  simp [or_assoc, or_comm, eq_comm]

/-- What a stable run leaves behind, in terms of the calls that were performed. -/
structure Recorded (nfa : NFA) (done : List Command) : Prop where
  regular : nfa.Regular
  alphabet : Apart nfa.alphabet
  faithful : nfa.Faithful done
  start : nfa.initial.map (fun state => .text state.name) = latestStart done
  final : ∀ name, (∃ final ∈ nfa.finals, final.name = name) ↔ .addFinal (.text name) ∈ done

theorem recorded_replay {epsilon : Label} {symbols : List Label} {fresh : NFA}
    (created : create epsilon symbols .empty = .ok fresh) {commands : List Command}
    (stable : fresh.NameStable commands) :
    (fresh.replay commands).Recorded (fresh.performed commands) where
  regular := (regular_of_create created).replay commands
  alphabet := apart_alphabet_replay created commands
  faithful := faithful_replay created stable
  start := initial_replay created commands
  final := mem_finals_replay created commands

section Following

variable {nfa : NFA} {done : List Command} (recorded : nfa.Recorded done) {start : State}
  (started : nfa.initial = some start) {word : List Label} (unmarked : Unmarked nfa.epsilon word)
include recorded started unmarked

theorem Recorded.exists_name_follow_iff (name : String) :
    (∃ state ∈ nfa.follow (nfa.close [start]) word, state.name = name) ↔
      Path (Asked done) nfa.epsilon (.text start.name) word (.text name) := by
  have current := current_initial started
  have given : ∀ state ∈ [start], nfa.Current state := by simpa using current
  constructor
  · rintro ⟨state, reached, rfl⟩
    obtain ⟨origin, here, path⟩ := (mem_follow_iff recorded.faithful.coherent given unmarked state).mp reached
    obtain rfl := List.mem_singleton.mp here
    exact recorded.faithful.path_of_leads current path
  · intro path
    obtain ⟨target, named, leads⟩ := recorded.faithful.leads_of_path current path
    obtain rfl := Label.text.inj named
    exact ⟨target, (mem_follow_iff recorded.faithful.coherent given unmarked target).mpr
      ⟨start, List.mem_singleton_self start, leads⟩, rfl⟩

section Built

variable {namer : Namer} {found : List Composite}
  (covers : nfa.Covers namer.name (nfa.close [start]) found)
include covers

/-- The automaton that is built comes, along each word, to the name of the states after the word. -/
theorem Recorded.follow_built :
    (nfa.assemble namer.name (nfa.close [start]) found).follow
        (nfa.assemble namer.name (nfa.close [start]) found).initial word =
      if (nfa.follow (nfa.close [start]) word).isEmpty then none
      else some (.text (namer.name ((nfa.follow (nfa.close [start]) word).map State.name))) := by
  have coherent := recorded.faithful.coherent
  rcases follow_assemble recorded.regular coherent covers (current_start coherent started) unmarked
    covers.seeded with ⟨missing, empty⟩ | ⟨known, present, path, same⟩
  · have stuck : nfa.follow (nfa.close [start]) word = [] := empty
    rw [stuck]
    exact missing
  · have holds : ∀ state, state ∈ known.states ↔ state ∈ nfa.follow (nfa.close [start]) word := same
    have formed := covers.formed known present
    obtain ⟨state, here⟩ := List.exists_mem_of_ne_nil _ formed.filled
    have filled : (nfa.follow (nfa.close [start]) word).isEmpty = false :=
      List.isEmpty_eq_false_iff.mpr (List.ne_nil_of_mem ((holds state).mp here))
    rw [filled, ← formed.name_eq holds]
    exact path

theorem Recorded.isFinal_built (filled : nfa.follow (nfa.close [start]) word ≠ []) :
    (nfa.assemble namer.name (nfa.close [start]) found).isFinal
        (.text (namer.name ((nfa.follow (nfa.close [start]) word).map State.name))) =
      nfa.isFinal (nfa.follow (nfa.close [start]) word) := by
  have coherent := recorded.faithful.coherent
  rcases follow_assemble recorded.regular coherent covers (current_start coherent started) unmarked
    covers.seeded with ⟨-, empty⟩ | ⟨known, present, -, same⟩
  · exact absurd empty filled
  · have holds : ∀ state, state ∈ known.states ↔ state ∈ nfa.follow (nfa.close [start]) word := same
    rw [← (covers.formed known present).name_eq holds, isFinal_assemble covers present, Bool.eq_iff_iff,
      isFinal_iff, isFinal_iff]
    simp only [holds]

end Built

end Following

section Found

variable {nfa : NFA} {done : List Command} (recorded : nfa.Recorded done) {start : State}
  (started : nfa.initial = some start) {namer : Namer} {found : List Composite}
  (covers : nfa.Covers namer.name (nfa.close [start]) found)
include recorded started covers

/-- Each set that was found holds the names that some word leads to. -/
theorem Recorded.exists_word_of_found {composite : Composite} (present : composite ∈ found) :
    ∃ word, Unmarked nfa.epsilon word ∧ nfa.follow (nfa.close [start]) word = composite.states ∧
      ∀ name, name ∈ composite.members ↔
        Path (Asked done) nfa.epsilon (.text start.name) word (.text name) := by
  obtain ⟨word, letters, leads, -⟩ := NFA.exists_word_of_found recorded.regular covers present
  have unmarked := recorded.regular.unmarked letters
  refine ⟨word, unmarked, leads, fun name => ?_⟩
  rw [(covers.formed composite present).mem_members, ← leads, recorded.exists_name_follow_iff started unmarked]

/-- Each word that leads to some name leads to a set that was found. -/
theorem Recorded.exists_found_of_path {word : List Label} (unmarked : Unmarked nfa.epsilon word) {last : String}
    (path : Path (Asked done) nfa.epsilon (.text start.name) word (.text last)) :
    ∃ composite ∈ found, ∀ name, name ∈ composite.members ↔
      Path (Asked done) nfa.epsilon (.text start.name) word (.text name) := by
  have coherent := recorded.faithful.coherent
  rcases follow_assemble recorded.regular coherent covers (current_start coherent started) unmarked
    covers.seeded with ⟨-, empty⟩ | ⟨composite, present, -, same⟩
  · obtain ⟨state, reached, -⟩ := (recorded.exists_name_follow_iff started unmarked last).mpr path
    exact absurd empty (List.ne_nil_of_mem reached)
  · have holds : ∀ state, state ∈ composite.states ↔ state ∈ nfa.follow (nfa.close [start]) word := same
    refine ⟨composite, present, fun name => ?_⟩
    rw [(covers.formed composite present).mem_members, ← recorded.exists_name_follow_iff started unmarked]
    simp only [holds]

end Found

theorem accessible_assemble {nfa : NFA} {naming : Naming} {first : List State} {found : List Composite}
    (regular : nfa.Regular) (covers : nfa.Covers naming first found) :
    (nfa.assemble naming first found).Accessible := by
  refine DFA.accessible_of_keys (hasState_assemble covers.seeded) fun key present => ?_
  obtain ⟨composite, known, rfl⟩ : ∃ composite ∈ found, .text composite.name = key := by
    simpa [keys_assemble] using present
  obtain ⟨word, -, -, path⟩ := exists_word_of_found regular covers known
  exact ⟨word, _, path, BEq.rfl⟩

end NFA

end FiniteAutomata
