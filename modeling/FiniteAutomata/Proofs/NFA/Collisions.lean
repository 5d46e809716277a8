import FiniteAutomata.Proofs.NFA.Assembled
import FiniteAutomata.Proofs.NFA.Simulation
import Mathlib.Data.Set.Function

set_option autoImplicit false

/-!
When two sets share a name. After a stable run, and for any way to name sets, the construction is stopped
exactly when two different sets that words lead to share a name. Otherwise it has one state for each set.
-/

namespace FiniteAutomata

namespace NFA

/-- The sets that words over the alphabet lead to from the start, with some states in each. A set stands here as
the sorted list of the names of its members. -/
def occurring (nfa : NFA) : Set (List String) :=
  {members | ∃ word states, (∀ symbol ∈ word, nfa.alphabet.contains symbol = true) ∧
    nfa.simulate word = .ok states ∧ states ≠ [] ∧ canonical (states.map State.name) = members}

variable {nfa : NFA} {naming : Naming} {first : List State}

theorem Regular.unmarked_of_contains (regular : nfa.Regular) {word : List Label}
    (letters : ∀ symbol ∈ word, nfa.alphabet.contains symbol = true) : Unmarked nfa.epsilon word := by
  intro symbol present
  obtain ⟨letter, known, same⟩ := List.contains_iff_exists_mem_beq.mp (letters symbol present)
  exact (BEq.congr_left same).trans (regular.real letter known)

theorem mem_occurring_of_reaches (regular : nfa.Regular) {start : State} (started : nfa.initial = some start)
    {inside : Composite → Prop} {composite : Composite}
    (reached : (nfa.compositeSearch naming).Reaches [.ofStates naming (nfa.close [start])] inside composite) :
    composite.members ∈ nfa.occurring := by
  obtain ⟨formed, word, letters, leads⟩ := exists_word_of_reaches regular.sound naming (by simp) reached
  have known : ∀ symbol ∈ word, nfa.alphabet.contains symbol = true := fun symbol present =>
    List.contains_iff_exists_mem_beq.mpr ⟨symbol, letters symbol present, BEq.rfl⟩
  refine ⟨word, composite.states, known, ?_, formed.filled, formed.members.symm⟩
  rw [simulate_eq_follow regular.sound started (regular.unmarked letters), leads]

theorem exists_collision_of_refused (regular : nfa.Regular) {start : State} (started : nfa.initial = some start)
    {refused : Composite} (stop : (nfa.composites naming (nfa.close [start])).refused = some refused) :
    ∃ left ∈ nfa.occurring, ∃ right ∈ nfa.occurring, left ≠ right ∧ naming left = naming right := by
  -- the two sets are the one that stopped the construction and the one found before it under its name
  have filled : nfa.close [start] ≠ [] := by simp
  obtain ⟨known, met, same, differ, possible⟩ := refused_composites regular.sound naming filled stop
  have reached := (explored_composites regular.sound naming filled).reached known met
  have knownFormed := (exists_word_of_reaches regular.sound naming filled reached).1
  have refusedFormed := (exists_word_of_reaches regular.sound naming filled possible).1
  rw [knownFormed.name, refusedFormed.name] at same
  exact ⟨_, mem_occurring_of_reaches regular started reached, _,
    mem_occurring_of_reaches regular started possible, differ, same⟩

section Found

variable (regular : nfa.Regular) (coherent : nfa.Coherent) {start : State}
  (started : nfa.initial = some start) {found : List Composite}
  (covers : nfa.Covers naming (nfa.close [start]) found)
include regular coherent started covers

theorem mem_occurring_iff (members : List String) :
    members ∈ nfa.occurring ↔ ∃ composite ∈ found, composite.members = members := by
  constructor
  · rintro ⟨word, states, letters, leads, filled, rfl⟩
    have unmarked := regular.unmarked_of_contains letters
    rw [simulate_eq_follow regular.sound started unmarked] at leads
    obtain rfl := Except.ok.inj leads
    have current := current_start coherent started
    rcases follow_assemble regular coherent covers current unmarked covers.seeded with
      ⟨-, empty⟩ | ⟨known, present, -, holds⟩
    · exact absurd empty filled
    · refine ⟨known, present, ?_⟩
      rw [(covers.formed known present).members, canonical_eq_iff]
      simp only [List.mem_map, holds]
      exact fun _ => Iff.rfl
  · rintro ⟨composite, present, rfl⟩
    exact mem_occurring_of_reaches regular started (covers.reached composite present)

theorem injOn_occurring : Set.InjOn naming nfa.occurring := by
  have occurs := mem_occurring_iff regular coherent started covers
  intro left leftOccurs right rightOccurs same
  obtain ⟨leftSet, leftFound, rfl⟩ := (occurs left).mp leftOccurs
  obtain ⟨rightSet, rightFound, rfl⟩ := (occurs right).mp rightOccurs
  rw [← (covers.formed _ leftFound).name, ← (covers.formed _ rightFound).name] at same
  rw [covers.distinct _ leftFound _ rightFound same]

theorem bijOn_keys_assemble : Set.BijOn (fun members => Label.text (naming members)) nfa.occurring
    {state | state ∈ (nfa.assemble naming (nfa.close [start]) found).states.keys} := by
  have occurs := mem_occurring_iff regular coherent started covers
  have keys (state : Label) : state ∈ (nfa.assemble naming (nfa.close [start]) found).states.keys ↔
      ∃ composite ∈ found, .text composite.name = state := by simp [keys_assemble]
  refine ⟨?_, ?_, ?_⟩
  · intro members occurring
    obtain ⟨composite, present, rfl⟩ := (occurs members).mp occurring
    exact (keys _).mpr ⟨composite, present, by rw [(covers.formed composite present).name]⟩
  · intro left leftOccurs right rightOccurs same
    exact injOn_occurring regular coherent started covers leftOccurs rightOccurs (Label.text.inj same)
  · intro state known
    obtain ⟨composite, present, rfl⟩ := (keys state).mp known
    exact ⟨composite.members, (occurs _).mpr ⟨composite, present, rfl⟩, by
      rw [(covers.formed composite present).name]⟩

theorem members_of_occurring {members : List String} (occurring : members ∈ nfa.occurring) :
    (nfa.assemble naming (nfa.close [start]) found).members (.text (naming members)) =
      .ok (members.map .text) := by
  obtain ⟨composite, present, rfl⟩ := (mem_occurring_iff regular coherent started covers members).mp occurring
  rw [← (covers.formed composite present).name]
  exact members_assemble covers present

end Found

theorem toDfa_sharedName_iff {epsilon : Label} {symbols : List Label} {fresh : NFA}
    (created : create epsilon symbols .empty = .ok fresh) {commands : List Command}
    (stable : fresh.NameStable commands) {start : State}
    (started : (fresh.replay commands).initial = some start) (naming : Naming) :
    ((∃ name, (fresh.replay commands).toDfa naming = .error (.sharedName name)) ↔
      ∃ left ∈ (fresh.replay commands).occurring, ∃ right ∈ (fresh.replay commands).occurring,
        left ≠ right ∧ naming left = naming right) ∧
    ((∀ name, (fresh.replay commands).toDfa naming ≠ .error (.sharedName name)) →
      ∃ dfa, (fresh.replay commands).toDfa naming = .ok dfa ∧ dfa.states.keys.Nodup ∧
        Set.BijOn (fun members => Label.text (naming members)) (fresh.replay commands).occurring
          {state | state ∈ dfa.states.keys} ∧
        ∀ members ∈ (fresh.replay commands).occurring,
          dfa.members (.text (naming members)) = .ok (members.map .text)) := by
  have regular := (regular_of_create created).replay commands
  have coherent := (faithful_replay created stable).coherent
  generalize fresh.replay commands = nfa at regular coherent started ⊢
  cases outcome : (nfa.composites naming (nfa.close [start])).refused with
  | some refused =>
      have stopped := toDfa_of_refused regular.sound started outcome
      have collision := exists_collision_of_refused regular started outcome
      exact ⟨⟨fun _ => collision, fun _ => ⟨_, stopped⟩⟩, fun unstopped => absurd stopped (unstopped _)⟩
  | none =>
      obtain ⟨built, covers⟩ := toDfa_of_unrefused regular.sound started outcome
      have names := nodup_names_found regular.sound naming (by simp : nfa.close [start] ≠ [])
      refine ⟨⟨?_, ?_⟩, fun _ => ⟨_, built, ?_, bijOn_keys_assemble regular coherent started covers,
        fun _ => members_of_occurring regular coherent started covers⟩⟩
      · rintro ⟨name, stopped⟩
        rw [built] at stopped
        simp at stopped
      · rintro ⟨left, leftOccurs, right, rightOccurs, differ, same⟩
        exact absurd (injOn_occurring regular coherent started covers leftOccurs rightOccurs same) differ
      · rw [keys_assemble]
        exact names.map fun _ _ => Label.text.inj

theorem toDfa_sharedName_iff_silentCycle :
    create standardEpsilon [] .empty = .ok (empty standardEpsilon .empty) ∧
      (empty standardEpsilon .empty).NameStable silentCycle ∧
      (∃ left ∈ ((empty standardEpsilon .empty).replay silentCycle).occurring,
        ∃ right ∈ ((empty standardEpsilon .empty).replay silentCycle).occurring, left ≠ right) ∧
      ∃ dfa, ((empty standardEpsilon .empty).replay silentCycle).toDfa
          (fun members => if members.length = 1 then "one" else "many") = .ok dfa ∧
        Set.BijOn (fun members => Label.text (if members.length = 1 then "one" else "many"))
          ((empty standardEpsilon .empty).replay silentCycle).occurring {state | state ∈ dfa.states.keys} := by
  -- there are two sets, of two states and of one: the same name for both stops the construction
  have created : create standardEpsilon [] .empty = .ok (empty standardEpsilon .empty) := rfl
  have naming := toDfa_sharedName_iff created nameStable_silentCycle initial_silentCycle
  have stopped : ((empty standardEpsilon .empty).replay silentCycle).toDfa (fun _ => "any") =
      .error (.sharedName "any") := by rfl
  obtain ⟨left, leftOccurs, right, rightOccurs, differ, -⟩ := (naming _).1.mp ⟨_, stopped⟩
  obtain ⟨dfa, built, -, sets, -⟩ :=
    (naming fun members => if members.length = 1 then "one" else "many").2 (by
      intro name stopped
      have built : (((empty standardEpsilon .empty).replay silentCycle).toDfa
          fun members => if members.length = 1 then "one" else "many").isOk = true := by rfl
      rw [stopped] at built
      exact Bool.noConfusion built)
  exact ⟨created, nameStable_silentCycle, ⟨left, leftOccurs, right, rightOccurs, differ⟩, dfa, built, sets⟩

end NFA

end FiniteAutomata
