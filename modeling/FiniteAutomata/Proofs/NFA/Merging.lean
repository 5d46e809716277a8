import FiniteAutomata.Proofs.NFA.Simulation

set_option autoImplicit false

/-!
When the deterministic automaton accepts the same words. The construction goes by names: a set that it meets
again may hold other states than before, of the same names, if a name was declared anew. The automaton that it
builds is equivalent to the given one exactly when no words tell the sets apart that it takes for one.
-/

namespace FiniteAutomata

namespace NFA

/-- The same words lead from both lists to a final state. -/
def Alike (nfa : NFA) (left right : List State) : Prop :=
  ∀ word, Unmarked nfa.epsilon word →
    nfa.isFinal (nfa.follow left word) = nfa.isFinal (nfa.follow right word)

/-- A set that was found is like each set that is taken for it when another is expanded. -/
def MergesAlike (nfa : NFA) (found : List Composite) : Prop :=
  ∀ composite ∈ found, ∀ symbol ∈ nfa.alphabet, ∀ known ∈ found,
    known.members = canonical ((nfa.close (nfa.move composite.states symbol)).map State.name) →
      nfa.Alike known.states (nfa.close (nfa.move composite.states symbol))

variable {nfa : NFA} {naming : Naming} {first : List State} {found : List Composite}

section Equivalence

variable (regular : nfa.Regular) (covers : nfa.Covers naming first found)
include regular covers

theorem verdict_assemble (alike : nfa.MergesAlike found) {word : List Label}
    (unmarked : Unmarked nfa.epsilon word) {composite : Composite} (present : composite ∈ found) :
    (nfa.assemble naming first found).verdict (.text composite.name) word =
      nfa.isFinal (nfa.follow composite.states word) := by
  -- if what is merged is alike, the words that are accepted from a set are those that its states accept
  induction word generalizing composite with
  | nil => exact isFinal_assemble covers present
  | cons symbol rest ih =>
      obtain ⟨real, later⟩ := unmarked_cons.mp unmarked
      rw [DFA.verdict, DFA.follow_cons, follow_cons]
      by_cases stuck : nfa.close (nfa.move composite.states symbol) = []
      · rw [(target?_eq_none_iff regular covers present real).mpr stuck, stuck, follow_empty]
        exact isFinal_null found
      · obtain ⟨known, knownPresent, step, members⟩ := exists_target regular covers present real stuck
        obtain ⟨letter, lettered, moved⟩ := exists_letter regular real stuck
        rw [step, Option.bind_some, ← moved]
        rw [← moved] at members
        have merged := alike composite present letter lettered known knownPresent members
        exact (ih later knownPresent).trans (merged rest later)

theorem mergesAlike_of_verdict (agree : ∀ word, Unmarked nfa.epsilon word →
    (nfa.assemble naming first found).verdict (nfa.assemble naming first found).initial word =
      nfa.isFinal (nfa.follow first word)) : nfa.MergesAlike found := by
  -- if the same words are accepted, no word tells apart what is merged
  intro composite present symbol lettered known knownPresent members word unmarked
  have real := regular.real symbol lettered
  have filled : nfa.close (nfa.move composite.states symbol) ≠ [] := by
    intro stuck
    have some := (covers.formed known knownPresent).members_ne_nil
    rw [members, stuck] at some
    exact some rfl
  -- the set that was found is the one that the move leads to
  obtain ⟨target, targetPresent, step, targetMembers⟩ := exists_target regular covers present real filled
  have name : target.name = known.name := by
    rw [(covers.formed target targetPresent).name, (covers.formed known knownPresent).name]
    rw [targetMembers, members]
  obtain rfl := covers.distinct target targetPresent known knownPresent name
  obtain ⟨around, aroundOver, aroundLeads, aroundPath⟩ := exists_word_of_found regular covers present
  obtain ⟨direct, directOver, directLeads, directPath⟩ := exists_word_of_found regular covers targetPresent
  have throughSymbol := agree (around ++ symbol :: word)
    (unmarked_append.mpr ⟨regular.unmarked aroundOver, unmarked_cons.mpr ⟨real, unmarked⟩⟩)
  have straight := agree (direct ++ word) (unmarked_append.mpr ⟨regular.unmarked directOver, unmarked⟩)
  rw [DFA.verdict_append aroundPath, follow_append, aroundLeads, follow_cons] at throughSymbol
  rw [DFA.verdict, DFA.follow_cons, step, Option.bind_some] at throughSymbol
  rw [DFA.verdict_append directPath, follow_append, directLeads] at straight
  exact straight.symm.trans throughSymbol

end Equivalence

theorem mergesAlike_of_coherent (regular : nfa.Regular) (coherent : nfa.Coherent)
    (covers : nfa.Covers naming first found) (current : ∀ state ∈ first, nfa.Current state) :
    nfa.MergesAlike found := by
  intro composite present symbol lettered known knownPresent members word unmarked
  have same := mem_states_iff regular coherent covers current knownPresent members
  rw [Bool.eq_iff_iff, isFinal_iff, isFinal_iff]
  simp only [mem_follow_congr coherent same]

/-- For every run: the same words are accepted exactly when no words tell apart the sets that were merged. -/
theorem toDfa_equivalent_iff {epsilon : Label} {symbols : List Label} {fresh : NFA}
    (created : create epsilon symbols .empty = .ok fresh) {commands : List Command} {start : State}
    (started : (fresh.replay commands).initial = some start) (namer : Namer) :
    ∃ dfa, (fresh.replay commands).toDfa namer.name = .ok dfa ∧
      ((∀ word, Unmarked epsilon word → (fresh.replay commands).accept word = dfa.accept word) ↔
        (fresh.replay commands).MergesAlike ((fresh.replay commands).foundFrom namer.name start)) ∧
      (fresh.NameStable commands →
        ∀ word, Unmarked epsilon word → (fresh.replay commands).accept word = dfa.accept word) := by
  have regular := (regular_of_create created).replay commands
  have coherent : fresh.NameStable commands → (fresh.replay commands).Coherent :=
    fun stable => (faithful_replay created stable).coherent
  have marker := epsilon_replay created commands
  generalize fresh.replay commands = nfa at regular coherent started marker ⊢
  subst marker
  obtain ⟨built, covers⟩ := toDfa_namer regular.sound started namer
  refine ⟨_, built, ?_⟩
  have verdicts : (∀ word, Unmarked nfa.epsilon word → nfa.accept word =
      (nfa.assemble namer.name (nfa.close [start]) (nfa.foundFrom namer.name start)).accept word) ↔
        nfa.MergesAlike (nfa.foundFrom namer.name start) := by
    constructor
    · intro agree
      apply mergesAlike_of_verdict regular covers
      intro word unmarked
      have same := agree word unmarked
      rw [accept_eq regular.sound started unmarked, DFA.accept_eq_verdict (solid_assemble _) unmarked] at same
      exact (Except.ok.inj same).symm
    · intro alike word unmarked
      rw [accept_eq regular.sound started unmarked, DFA.accept_eq_verdict (solid_assemble _) unmarked]
      exact congrArg Except.ok (verdict_assemble regular covers alike unmarked covers.seeded).symm
  refine ⟨verdicts, fun stable => ?_⟩
  have current := current_start (coherent stable) started
  exact verdicts.mpr (mergesAlike_of_coherent regular (coherent stable) covers current)

/-- A run in which the start takes over the name of a state that a transition leads to already. -/
def reusedStart : List Command := [.addState (.text "p"), .addState (.text "s"), .addFinal (.text "f"),
  .addTransition (.text "p") (.text "a") (.text "s"), .addTransition (.text "s") (.text "b") (.text "f"),
  .setStart (.text "s"), .addTransition (.text "s") (.text "a") (.text "p")]

theorem initial_reusedStart :
    ((empty standardEpsilon .empty).replay reusedStart).initial = some ⟨3, "s", by decide⟩ := by rfl

theorem unmarked_reusedStart : Unmarked standardEpsilon [.text "a", .text "a", .text "b"] := by
  unfold Unmarked
  decide

theorem accept_reusedStart : ((empty standardEpsilon .empty).replay reusedStart).accept
    [.text "a", .text "a", .text "b"] = .ok true := by rfl

theorem toDfa_reusedStart :
    (((empty standardEpsilon .empty).replay reusedStart).toDfa Namer.standard.name >>=
      fun dfa => dfa.accept [.text "a", .text "a", .text "b"]) = .ok false := by rfl

theorem toDfa_equivalent_iff_reusedStart :
    create standardEpsilon [] .empty = .ok (empty standardEpsilon .empty) ∧
      ∃ start, ((empty standardEpsilon .empty).replay reusedStart).initial = some start ∧
        ¬ ((empty standardEpsilon .empty).replay reusedStart).MergesAlike
          (((empty standardEpsilon .empty).replay reusedStart).foundFrom Namer.standard.name start) := by
  have created : create standardEpsilon [] .empty = .ok (empty standardEpsilon .empty) := rfl
  obtain ⟨dfa, built, agree, -⟩ := toDfa_equivalent_iff created initial_reusedStart Namer.standard
  refine ⟨created, _, initial_reusedStart, fun alike => ?_⟩
  have same := agree.mpr alike _ unmarked_reusedStart
  have rejects := toDfa_reusedStart
  rw [built] at rejects
  have verdict : Except.ok true = (.ok false : Except Error Bool) :=
    accept_reusedStart.symm.trans (same.trans rejects)
  simp at verdict

theorem toDfa_not_equivalent :
    create standardEpsilon [] .empty = .ok (empty standardEpsilon .empty) ∧
      ((empty standardEpsilon .empty).replay reusedStart).initial.isSome = true ∧
      Unmarked standardEpsilon [.text "a", .text "a", .text "b"] ∧
      ((empty standardEpsilon .empty).replay reusedStart).accept [.text "a", .text "a", .text "b"] ≠
        ((empty standardEpsilon .empty).replay reusedStart).toDfa Namer.standard.name >>=
          fun dfa => dfa.accept [.text "a", .text "a", .text "b"] := by
  -- the words that are accepted are not the same after every run
  refine ⟨rfl, by rw [initial_reusedStart, Option.isSome_some], unmarked_reusedStart, ?_⟩
  rw [accept_reusedStart, toDfa_reusedStart]
  simp

end NFA

end FiniteAutomata
