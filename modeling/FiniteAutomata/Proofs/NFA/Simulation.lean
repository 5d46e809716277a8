import FiniteAutomata.Proofs.NFA.Determinized
import FiniteAutomata.Proofs.NFA.Language

set_option autoImplicit false

/-!
After a stable run the deterministic automaton keeps step with the sets of states: along each word it comes to
the name of the set that the word leads to, as long as that is not empty.
-/

namespace FiniteAutomata

namespace NFA

/-- How the automaton that was built tells about the sets after each word. -/
structure Simulates (nfa : NFA) (namer : Namer) (dfa : DFA) : Prop where
  defined : ∀ word, Unmarked nfa.epsilon word → ((dfa.follow dfa.initial word).isSome = true ↔
    ∀ before, before <+: word → ∃ states, nfa.simulate before = .ok states ∧ states ≠ [])
  told : ∀ word, Unmarked nfa.epsilon word → ∀ state, dfa.follow dfa.initial word = some state →
    ∃ states, nfa.simulate word = .ok states ∧ state = .text (namer.name (states.map State.name)) ∧
      (∃ members, dfa.members state = .ok members ∧
        ∀ member, member ∈ members ↔ ∃ known ∈ states, member = .text known.name) ∧
      (dfa.isFinal state = true ↔ ∃ known ∈ states, ∃ final ∈ nfa.finals, final.name = known.name)
  reached : ∀ state ∈ dfa.states.keys, ∃ word states, (∀ symbol ∈ word, symbol ∈ nfa.alphabet) ∧
    dfa.follow dfa.initial word = some state ∧ nfa.simulate word = .ok states ∧ states ≠ []

variable {nfa : NFA} {naming : Naming} {first : List State} {found : List Composite}

section Coherence

variable (regular : nfa.Regular) (coherent : nfa.Coherent) (covers : nfa.Covers naming first found)
  (current : ∀ state ∈ first, nfa.Current state)
include regular coherent covers current

theorem current_of_found {composite : Composite} (present : composite ∈ found) :
    ∀ state ∈ composite.states, nfa.Current state := by
  obtain ⟨word, -, leads, -⟩ := exists_word_of_found regular covers present
  rw [← leads]
  exact current_follow coherent current word

theorem mem_states_iff {known : Composite} (present : known ∈ found) {states : List State} {symbol : Label}
    (members : known.members = canonical ((nfa.close (nfa.move states symbol)).map State.name))
    (state : State) : state ∈ known.states ↔ state ∈ nfa.close (nfa.move states symbol) := by
  -- in a coherent automaton names tell states apart: a set with the names of those led to holds the same
  apply mem_iff_of_names (current_of_found regular coherent covers current present)
    (current_close coherent (current_move coherent))
  intro name
  rw [← (covers.formed known present).mem_members, members, mem_canonical, List.mem_map]

theorem follow_assemble {word : List Label} (unmarked : Unmarked nfa.epsilon word) {composite : Composite}
    (present : composite ∈ found) :
    ((nfa.assemble naming first found).follow (.text composite.name) word = none ∧
        nfa.follow composite.states word = []) ∨
      ∃ known ∈ found,
        (nfa.assemble naming first found).follow (.text composite.name) word = some (.text known.name) ∧
        ∀ state, state ∈ known.states ↔ state ∈ nfa.follow composite.states word := by
  -- from a set that was found, the moves along a word lead to one that holds the states after the word
  induction word generalizing composite with
  | nil => exact .inr ⟨composite, present, rfl, fun _ => Iff.rfl⟩
  | cons symbol rest ih =>
      obtain ⟨real, later⟩ := unmarked_cons.mp unmarked
      rw [DFA.follow_cons, follow_cons]
      by_cases stuck : nfa.close (nfa.move composite.states symbol) = []
      · left
        rw [(target?_eq_none_iff regular covers present real).mpr stuck, stuck, follow_empty]
        exact ⟨rfl, rfl⟩
      · obtain ⟨known, knownPresent, step, members⟩ := exists_target regular covers present real stuck
        -- the moves go on from the set that was found, the states from those led to, and both hold the same
        have same := mem_states_iff regular coherent covers current knownPresent members
        have onwards := mem_follow_congr coherent same rest
        rw [step, Option.bind_some]
        rcases ih later knownPresent with ⟨missing, empty⟩ | ⟨goal, goalPresent, path, holds⟩
        · left
          refine ⟨missing, List.eq_nil_iff_forall_not_mem.mpr fun state reached => ?_⟩
          rw [← onwards, empty] at reached
          simp at reached
        · right
          exact ⟨goal, goalPresent, path, fun state => (holds state).trans (onwards state)⟩

end Coherence

theorem simulates_of_covers (regular : nfa.Regular) (coherent : nfa.Coherent) {start : State}
    (started : nfa.initial = some start) {namer : Namer}
    (covers : nfa.Covers namer.name (nfa.close [start]) found) {dfa : DFA}
    (built : dfa = nfa.assemble namer.name (nfa.close [start]) found) : nfa.Simulates namer dfa := by
  have current := current_start coherent started
  have simulated {word : List Label} (unmarked : Unmarked nfa.epsilon word) :
      nfa.simulate word = .ok (nfa.follow (nfa.close [start]) word) :=
    simulate_eq_follow regular.sound started unmarked
  have run {word : List Label} (unmarked : Unmarked nfa.epsilon word) :
      (dfa.follow dfa.initial word = none ∧ nfa.follow (nfa.close [start]) word = []) ∨
        ∃ known ∈ found, dfa.follow dfa.initial word = some (.text known.name) ∧
          ∀ state, state ∈ known.states ↔ state ∈ nfa.follow (nfa.close [start]) word := by
    rw [built]
    exact follow_assemble regular coherent covers current unmarked covers.seeded
  have leads {word : List Label} (unmarked : Unmarked nfa.epsilon word) :
      (dfa.follow dfa.initial word).isSome = true ↔ nfa.follow (nfa.close [start]) word ≠ [] := by
    rcases run unmarked with ⟨missing, empty⟩ | ⟨known, present, path, holds⟩
    · simp [missing, empty]
    · obtain ⟨state, here⟩ := List.exists_mem_of_ne_nil _ (covers.formed known present).filled
      have filled := List.ne_nil_of_mem ((holds state).mp here)
      simp [path, filled]
  refine ⟨?_, ?_, ?_⟩
  · intro word unmarked
    rw [leads unmarked, follow_ne_nil_iff]
    constructor
    · intro filled before begins
      exact ⟨_, simulated (unmarked.of_prefix begins), filled before begins⟩
    · intro filled before begins
      obtain ⟨states, reached, some⟩ := filled before begins
      rw [simulated (unmarked.of_prefix begins)] at reached
      rwa [Except.ok.inj reached]
  · intro word unmarked state path
    rcases run unmarked with ⟨missing, -⟩ | ⟨known, present, ends, holds⟩
    · simp [missing] at path
    · obtain rfl : .text known.name = state := by simpa [ends] using path
      have formed := covers.formed known present
      refine ⟨_, simulated unmarked, congrArg Label.text (formed.name_eq holds), ?_, ?_⟩
      · rw [built, members_assemble covers present]
        refine ⟨_, rfl, fun member => ?_⟩
        rw [formed.members]
        simp only [List.mem_map, mem_canonical, holds]
        constructor
        · rintro ⟨_, ⟨state, here, rfl⟩, rfl⟩
          exact ⟨state, here, rfl⟩
        · rintro ⟨state, here, rfl⟩
          exact ⟨_, ⟨state, here, rfl⟩, rfl⟩
      · rw [built, isFinal_assemble covers present, isFinal_iff]
        simp only [holds]
  · intro state present
    obtain ⟨composite, known, rfl⟩ : ∃ composite ∈ found, .text composite.name = state := by
      simpa [built, assemble, Table.keys] using present
    obtain ⟨word, letters, -, path⟩ := exists_word_of_found regular covers known
    have unmarked := regular.unmarked letters
    rw [← built] at path
    have filled := (leads unmarked).mp (by simp [path])
    exact ⟨word, _, letters, path, simulated unmarked, filled⟩

theorem toDfa_simulates {epsilon : Label} {symbols : List Label} {fresh : NFA}
    (created : create epsilon symbols .empty = .ok fresh) {commands : List Command}
    (stable : fresh.NameStable commands) {start : State}
    (started : (fresh.replay commands).initial = some start) (namer : Namer) :
    ∃ dfa, (fresh.replay commands).toDfa namer.name = .ok dfa ∧
      (fresh.replay commands).Simulates namer dfa := by
  have regular := (regular_of_create created).replay commands
  have coherent := (faithful_replay created stable).coherent
  obtain ⟨built, covers⟩ := toDfa_namer regular.sound started namer
  exact ⟨_, built, simulates_of_covers regular coherent started covers rfl⟩

theorem toDfa_simulates_silentCycle :
    create standardEpsilon [] .empty = .ok (empty standardEpsilon .empty) ∧
      (empty standardEpsilon .empty).NameStable silentCycle ∧
      ∃ dfa, ((empty standardEpsilon .empty).replay silentCycle).toDfa Namer.standard.name = .ok dfa ∧
        dfa.follow dfa.initial [.text "a"] = some (.text "[f]") ∧ dfa.isFinal (.text "[f]") = true := by
  have created : create standardEpsilon [] .empty = .ok (empty standardEpsilon .empty) := rfl
  obtain ⟨dfa, built, steps⟩ :=
    toDfa_simulates created nameStable_silentCycle initial_silentCycle Namer.standard
  have leads : ∀ before, before <+: [.text "a"] → ∃ states,
      ((empty standardEpsilon .empty).replay silentCycle).simulate before = .ok states ∧ states ≠ [] := by
    intro before begins
    rcases List.prefix_cons_iff.mp begins with rfl | ⟨rest, rfl, ends⟩
    · exact ⟨_, rfl, List.cons_ne_nil _ _⟩
    · rw [List.prefix_nil.mp ends]
      exact ⟨_, rfl, List.cons_ne_nil _ _⟩
  obtain ⟨state, path⟩ := Option.isSome_iff_exists.mp ((steps.defined _ unmarked_a).mpr leads)
  obtain ⟨states, reached, named, -, final⟩ := steps.told _ unmarked_a state path
  obtain rfl := Except.ok.inj reached
  have name : state = .text "[f]" := by
    rw [named]
    exact congrArg Label.text (by decide +kernel)
  subst name
  exact ⟨created, nameStable_silentCycle, dfa, built, path, final.mpr ((isFinal_iff _).mp (by rfl))⟩

end NFA

end FiniteAutomata
