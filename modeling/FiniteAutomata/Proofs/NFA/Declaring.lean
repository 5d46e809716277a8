import FiniteAutomata.Proofs.DFA.Isomorphism
import FiniteAutomata.Proofs.NFA.Assembled
import FiniteAutomata.Proofs.NFA.Marked
import FiniteAutomata.Proofs.NFA.Merging

set_option autoImplicit false

/-!
What the calls that declare states and symbols do to the language. What is read depends on the start, the edges and
the marker of silent steps alone, which none of these calls changes: only a new final state counts, and it does for
the words that lead to its name. The sets that the subset construction finds stay the same.
-/

namespace FiniteAutomata

namespace NFA

variable {before after : NFA}

/-- The automaton with its start, its edges and its marker, and nothing else. -/
def bare (nfa : NFA) : NFA :=
  { empty nfa.epsilon ⟨0, nfa.graph.edges⟩ with initial := nfa.initial }

section Bare

variable (same : after.bare = before.bare)
include same

theorem congr_of_bare {α : Type} (read : NFA → α) (blind : ∀ nfa, read nfa.bare = read nfa) :
    read after = read before := by
  rw [← blind after, same, blind before]

theorem initial_congr : after.initial = before.initial :=
  congr_of_bare same initial fun _ => rfl

theorem epsilon_congr : after.epsilon = before.epsilon :=
  congr_of_bare same epsilon fun _ => rfl

theorem edges_congr : after.graph.edges = before.graph.edges :=
  congr_of_bare same (fun nfa => nfa.graph.edges) fun _ => rfl

theorem sound_congr (sound : before.graph.Sound) : after.graph.Sound :=
  fun edge present => sound edge (edges_congr same ▸ present)

theorem close_congr : after.close = before.close :=
  congr_of_bare same close fun _ => rfl

theorem step_congr : after.step = before.step :=
  congr_of_bare same step fun _ => rfl

theorem follow_congr : after.follow = before.follow :=
  congr_of_bare same follow fun _ => rfl

theorem simulate_congr : after.simulate = before.simulate :=
  congr_of_bare same simulate fun _ => rfl

theorem machine_congr (finals : after.finals = before.finals) : after.machine = before.machine := by
  have start : after.start = before.start := congr_of_bare same NFA.start fun _ => rfl
  have next : after.next = before.next := congr_of_bare same NFA.next fun _ => rfl
  simp only [machine, start, next, isFinal, finals]

end Bare

/-- The second automaton has the start, the edges and the marker of the first, and perhaps more symbols, on which
nothing moves. -/
structure Extends (before after : NFA) : Prop where
  bare : after.bare = before.bare
  alphabet : ∃ unused, after.alphabet = before.alphabet ++ unused ∧
    ∀ symbol ∈ unused, ∀ states, before.move states symbol = []

theorem extends_addSymbol (regular : before.Regular) {symbol : Label} (real : (symbol == before.epsilon) = false) :
    before.Extends { before with alphabet := addNew before.alphabet symbol } := by
  refine ⟨rfl, ?_⟩
  by_cases known : before.alphabet.contains symbol = true
  · exact ⟨[], by simp [addNew, known], by simp⟩
  · have foreign : before.alphabet.contains symbol = false := by simpa using known
    -- a symbol that was not declared is on no edge
    refine ⟨[symbol], by simp [addNew, foreign], fun other present states => ?_⟩
    obtain rfl := List.mem_singleton.mp present
    exact move_of_unlettered regular states real foreign

section Extends

variable (wider : before.Extends after) (sound : before.graph.Sound) (naming : Naming)
include wider

theorem Extends.filterMap_alphabet {β : Type} {offer : Label → Option β}
    (still : ∀ symbol, (∀ states, before.move states symbol = []) → offer symbol = none) :
    after.alphabet.filterMap offer = before.alphabet.filterMap offer := by
  obtain ⟨unused, alphabet, unmoved⟩ := wider.alphabet
  have nothing : unused.filterMap offer = [] :=
    List.filterMap_eq_nil_iff.mpr fun symbol present => still symbol (unmoved symbol present)
  rw [alphabet, List.filterMap_append, nothing, List.append_nil]

theorem Extends.successor?_eq (states : List State) :
    after.successor? naming states = before.successor? naming states := by
  funext symbol
  simp only [successor?, step_congr wider.bare]

include sound

theorem Extends.compositeSearch_eq : after.compositeSearch naming = before.compositeSearch naming := by
  have successors (composite : Composite) :
      after.alphabet.filterMap (before.successor? naming composite.states) =
        before.alphabet.filterMap (before.successor? naming composite.states) :=
    wider.filterMap_alphabet fun symbol still => by simp [successor?_eq_none_iff sound, still]
  simp only [compositeSearch, wider.successor?_eq, successors]

theorem Extends.nodeOf_eq : after.nodeOf naming = before.nodeOf naming := by
  funext composite
  have moves : (after.alphabet.filterMap fun symbol =>
        (before.successor? naming composite.states symbol).map fun target => (symbol, Label.text target.name)) =
      before.alphabet.filterMap fun symbol =>
        (before.successor? naming composite.states symbol).map fun target => (symbol, Label.text target.name) :=
    wider.filterMap_alphabet fun symbol still => by
      rw [(successor?_eq_none_iff sound naming composite.states symbol).mpr (by simp [still]), Option.map_none]
  simp only [nodeOf, wider.successor?_eq, moves]

theorem Extends.assemble_eq (first : List State) (found : List Composite) :
    after.assemble naming first found =
      { before.assemble naming first found with
        finals := (after.assemble naming first found).finals
        alphabet := after.alphabet } := by
  simp only [assemble, wider.nodeOf_eq sound, epsilon_congr wider.bare]

theorem Extends.foundFrom_eq (start : State) : after.foundFrom naming start = before.foundFrom naming start := by
  simp only [foundFrom, composites, wider.compositeSearch_eq sound, close_congr wider.bare, edges_congr wider.bare]

theorem Extends.toDfa_namer {start : State} (started : before.initial = some start) (namer : Namer) :
    after.toDfa namer.name = .ok
      (after.assemble namer.name (before.close [start]) (before.foundFrom namer.name start)) := by
  have begun : after.initial = some start := (initial_congr wider.bare).trans started
  have built := (NFA.toDfa_namer (sound_congr wider.bare sound) begun namer).1
  rwa [close_congr wider.bare, wider.foundFrom_eq sound] at built

end Extends

/-- All words are read with the same result, refusals among them, and the automata that are built are equal. -/
def ActsAs (before after : NFA) (namer : Namer) : Prop :=
  (∀ word, after.accept word = before.accept word) ∧
    ∃ old new, before.toDfa namer.name = .ok old ∧ after.toDfa namer.name = .ok new ∧
      new = { old with alphabet := after.alphabet } ∧ (new == old) = true

theorem Extends.actsAs (wider : before.Extends after) (finals : after.finals = before.finals)
    (regular : before.Regular) (alphabet : Apart before.alphabet) {start : State}
    (started : before.initial = some start) (namer : Namer) : before.ActsAs after namer := by
  obtain ⟨built, -⟩ := NFA.toDfa_namer regular.sound started namer
  have rebuilt := wider.toDfa_namer regular.sound started namer
  have final : after.isFinal = before.isFinal := by
    funext states
    simp only [isFinal, finals]
  rw [wider.assemble_eq regular.sound] at rebuilt
  simp only [assemble, final] at built rebuilt
  refine ⟨fun word => ?_, _, _, built, rebuilt, rfl, ?_⟩
  · simp only [accept, machine_congr wider.bare finals]
  · exact (regular_of_toDfa regular alphabet built).beq_self

/-- The automaton that is built has the same start, states, members and moves. The states that have the name among
their members are final besides those that were, and so the words that lead to the name are accepted besides. -/
structure AcceptsAlso (before after : NFA) (namer : Namer) (name : Label) : Prop where
  built : ∃ old new, before.toDfa namer.name = .ok old ∧ after.toDfa namer.name = .ok new ∧
    new = { old with finals := new.finals } ∧ ∀ state, new.isFinal state = true ↔
      old.isFinal state = true ∨ ∃ members, old.members state = .ok members ∧ name ∈ members
  accepts : ∀ word, Unmarked before.epsilon word → ∃ states old new,
    before.simulate word = .ok states ∧ after.simulate word = .ok states ∧
      before.accept word = .ok old ∧ after.accept word = .ok new ∧
      (new = true ↔ old = true ∨ ∃ state ∈ states, name = .text state.name)

/-- The states with a name are final besides those that were. -/
theorem isFinal_of_finals {added : State} (finals : after.finals = addNew before.finals added)
    (states : List State) : after.isFinal states = true ↔
      before.isFinal states = true ∨ ∃ state ∈ states, added.name = state.name := by
  simp only [isFinal_iff, finals, exists_name_addNew, and_or_left, exists_or]

theorem Extends.acceptsAlso {added : State} (wider : before.Extends after)
    (alphabet : after.alphabet = before.alphabet) (finals : after.finals = addNew before.finals added)
    (regular : before.Regular) {start : State} (started : before.initial = some start) (namer : Namer) :
    before.AcceptsAlso after namer (.text added.name) where
  built := by
    obtain ⟨built, covers⟩ := NFA.toDfa_namer regular.sound started namer
    have rebuilt := wider.toDfa_namer regular.sound started namer
    refine ⟨_, _, built, rebuilt, ?_, fun state => ?_⟩
    · rw [wider.assemble_eq regular.sound, alphabet]
      rfl
    · have among (composite : Composite) (present : composite ∈ before.foundFrom namer.name start) :
          .text added.name ∈ composite.members.map Label.text ↔
            ∃ state ∈ composite.states, added.name = state.name := by
        rw [List.mem_map_of_injective fun _ _ => Label.text.inj,
          (covers.formed composite present).mem_members]
        simp only [eq_comm]
      rw [isFinal_assemble_iff, isFinal_assemble_iff]
      simp only [isFinal_of_finals finals, members_assemble_iff covers]
      constructor
      · rintro ⟨composite, present, rfl, final | member⟩
        · exact .inl ⟨composite, present, rfl, final⟩
        · exact .inr ⟨_, ⟨composite, present, rfl, rfl⟩, (among composite present).mpr member⟩
      · rintro (⟨composite, present, rfl, final⟩ | ⟨_, ⟨composite, present, rfl, rfl⟩, member⟩)
        · exact ⟨composite, present, rfl, .inl final⟩
        · exact ⟨composite, present, rfl, .inr ((among composite present).mp member)⟩
  accepts word unmarked := by
    have begun : after.initial = some start := (initial_congr wider.bare).trans started
    have unmarkedAfter : Unmarked after.epsilon word := epsilon_congr wider.bare ▸ unmarked
    have simulated := simulate_eq_follow regular.sound started unmarked
    refine ⟨_, _, _, simulated, ?_, accept_eq regular.sound started unmarked,
      accept_eq (sound_congr wider.bare regular.sound) begun unmarkedAfter, ?_⟩
    · rw [simulate_congr wider.bare, simulated]
    · rw [close_congr wider.bare, follow_congr wider.bare, isFinal_of_finals finals]
      simp only [Label.text.injEq]

/-- After any run, declaring an ordinary state or a symbol changes neither which words are accepted nor the automaton
that is built. Declaring a final state adds the words that lead to its name. -/
theorem declaring_keeps_language {epsilon : Label} {symbols : List Label} {fresh : NFA}
    (created : create epsilon symbols .empty = .ok fresh) {commands : List Command} {start : State}
    (started : (fresh.replay commands).initial = some start) (namer : Namer) :
    (∀ name added, (fresh.replay commands).perform (.addState name) = .ok added →
      (fresh.replay commands).ActsAs added namer) ∧
    (∀ symbol added, (fresh.replay commands).perform (.addSymbol symbol) = .ok added →
      (fresh.replay commands).ActsAs added namer) ∧
    ∀ name added, (fresh.replay commands).perform (.addFinal name) = .ok added →
      (fresh.replay commands).AcceptsAlso added namer name := by
  have regular := (regular_of_create created).replay commands
  have alphabet := apart_alphabet_replay created commands
  generalize fresh.replay commands = before at regular alphabet started ⊢
  refine ⟨fun name added success => ?_, fun symbol added success => ?_, fun name added success => ?_⟩
  · cases effect_of_perform success with
    | addState => exact Extends.actsAs ⟨rfl, [], by simp⟩ rfl regular alphabet started namer
  · cases effect_of_perform success with
    | addSymbol symbol real => exact (extends_addSymbol regular real).actsAs rfl regular alphabet started namer
  · cases effect_of_perform success with
    | addFinal text filled =>
        have wider : before.Extends { before with
            finals := addNew before.finals (before.graph.born text filled)
            graph := before.graph.grown } := ⟨rfl, [], by simp⟩
        exact wider.acceptsAlso rfl rfl regular started namer

theorem declaring_keeps_language_reusedStart :
    create standardEpsilon [] .empty = .ok (empty standardEpsilon .empty) ∧
      (∃ added, ((empty standardEpsilon .empty).replay reusedStart).perform (.addState (.text "s")) = .ok added ∧
        added.accept [.text "a", .text "a", .text "b"] = .ok true) ∧
      (∃ added, ((empty standardEpsilon .empty).replay reusedStart).perform (.addSymbol (.text "c")) = .ok added ∧
        ((empty standardEpsilon .empty).replay reusedStart).ActsAs added Namer.standard) ∧
      ((empty standardEpsilon .empty).replay reusedStart).accept [.text "a"] = .ok false ∧
      ∃ added, ((empty standardEpsilon .empty).replay reusedStart).perform (.addFinal (.text "p")) = .ok added ∧
        added.accept [.text "a"] = .ok true ∧
        ∃ dfa, added.toDfa Namer.standard.name = .ok dfa ∧ dfa.isFinal (.text "[p]") = true := by
  have created : create standardEpsilon [] .empty = .ok (empty standardEpsilon .empty) := rfl
  obtain ⟨ordinary, letter, final⟩ := declaring_keeps_language created initial_reusedStart Namer.standard
  obtain ⟨⟨old, new, built, rebuilt, -, finals⟩, accepts⟩ := final (.text "p") _ rfl
  obtain ⟨states, _, accepted, simulated, -, -, now, iff⟩ := accepts _ unmarked_a
  have led : states = [⟨0, "p", by decide⟩] := (Except.ok.inj simulated).symm
  obtain rfl : accepted = true := iff.mpr (.inr (by simp [led]))
  refine ⟨created, ⟨_, rfl, ?_⟩, ⟨_, rfl, letter (.text "c") _ rfl⟩, by rfl, _, rfl, now, new, rebuilt, ?_⟩
  · rw [(ordinary (.text "s") _ rfl).1, accept_reusedStart]
  · obtain rfl := Except.ok.inj built
    exact (finals _).mpr (.inr ⟨[.text "p"], by rfl, by simp⟩)

end NFA

end FiniteAutomata
