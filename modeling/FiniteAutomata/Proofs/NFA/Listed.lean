import FiniteAutomata.Proofs.NFA.Hiding

set_option autoImplicit false

/-!
What an automaton lists about itself after any run of calls, whatever names were declared anew: one state for each
name, the one that the name stands for, and once each edge that such a state shows, in the order of the names that the
edges leave. A transition that is added adds its own triple and no other.
-/

namespace FiniteAutomata

namespace Graph

/-- No label leads from a state to two states of one name. -/
def Plain (graph : Graph) : Prop :=
  ∀ source label, Apart (graph.targets source label)

theorem apart_labels (graph : Graph) (source : State) : Apart (graph.labels source) :=
  apart_foldl_addNew _ List.Pairwise.nil

theorem Plain.connect {graph : Graph} (plain : graph.Plain) (source : State) (label : Label) (target : State) :
    (graph.connect source label target).Plain := by
  unfold Graph.connect
  split
  · exact plain
  · rename_i absent
    intro origin symbol
    rw [targets_add]
    split
    · rename_i leads
      obtain ⟨serial, same⟩ : source.serial = origin.serial ∧ (label == symbol) = true := by simpa using leads
      refine apart_concat (plain origin symbol) ?_
      rw [← graph.targets_congr serial same]
      exact Bool.eq_false_iff.mpr absent
    · simpa using plain origin symbol

end Graph

namespace NFA

variable {nfa changed : NFA}

/-- No two final states, no two ordinary states and no two states that a label leads to have one name. -/
structure Distinct (nfa : NFA) : Prop where
  finals : Apart nfa.finals
  ordinary : Apart nfa.ordinary
  plain : nfa.graph.Plain

theorem Distinct.perform {command : Command} (distinct : nfa.Distinct)
    (success : nfa.perform command = .ok changed) : changed.Distinct := by
  cases effect_of_perform success with
  | setStart text filled => exact ⟨distinct.finals, distinct.ordinary, distinct.plain⟩
  | addState text filled => exact ⟨distinct.finals, apart_addNew distinct.ordinary _, distinct.plain⟩
  | addFinal text filled => exact ⟨apart_addNew distinct.finals _, distinct.ordinary, distinct.plain⟩
  | addSymbol symbol real => exact ⟨distinct.finals, distinct.ordinary, distinct.plain⟩
  | addTransition source label target origin goal =>
      exact ⟨distinct.finals, distinct.ordinary, distinct.plain.connect origin label goal⟩

theorem distinct_replay {epsilon : Label} {symbols : List Label} {fresh : NFA}
    (created : create epsilon symbols .empty = .ok fresh) (commands : List Command) :
    (fresh.replay commands).Distinct := by
  have initial : fresh.Distinct := by
    rw [eq_of_create created]
    refine ⟨List.Pairwise.nil, List.Pairwise.nil, fun source label => ?_⟩
    simp [empty, Graph.empty, Graph.targets, Apart]
  exact replay_induction (P := fun reached _ => reached.Distinct) initial commands
    fun _ _ _ _ _ earlier success => earlier.perform success

section Names

/-- One state is listed for each name: the one that is found, the start before a final state and a final state before
an ordinary one. -/
structure NamesOnce (nfa : NFA) : Prop where
  once : (nfa.allStates.map State.name).Nodup
  found : ∀ name state, nfa.find name = .ok state ↔ state ∈ nfa.allStates ∧ name = .text state.name
  start : ∀ state, nfa.initial = some state → nfa.find (.text state.name) = .ok state
  final : ∀ state ∈ nfa.finals, (∀ start, nfa.initial = some start → start.name ≠ state.name) →
    nfa.find (.text state.name) = .ok state
  ordinary : ∀ state ∈ nfa.ordinary, ¬ nfa.Foremost state.name → nfa.find (.text state.name) = .ok state

theorem apart_allStates (nfa : NFA) : Apart nfa.allStates :=
  apart_foldl_addNew _ List.Pairwise.nil

theorem current_of_front {front back : List State} {state : State} (split : nfa.declared = front ++ back)
    (hidden : ∀ other ∈ front, other.name ≠ state.name) (first : back.find? (· == state) = some state) :
    nfa.Current state := by
  have none : front.find? (· == state) = none := List.find?_eq_none.mpr (by simpa using hidden)
  have found : nfa.declared.find? (· == state) = some state := by
    rw [split, List.find?_append, none, Option.none_or, first]
  simpa [Current, find?] using found

theorem Distinct.current_final (distinct : nfa.Distinct) {state : State} (present : state ∈ nfa.finals)
    (apart : ∀ start, nfa.initial = some start → start.name ≠ state.name) : nfa.Current state := by
  refine current_of_front (List.append_assoc ..) (by simpa using apart) ?_
  rw [List.find?_append, distinct.finals.find?_eq_some present, Option.some_or]

theorem Distinct.current_ordinary (distinct : nfa.Distinct) {state : State} (present : state ∈ nfa.ordinary)
    (behind : ¬ nfa.Foremost state.name) : nfa.Current state :=
  current_of_front rfl (fun other here same => behind ⟨other, here, same⟩)
    (distinct.ordinary.find?_eq_some present)

theorem Distinct.namesOnce (distinct : nfa.Distinct) : nfa.NamesOnce where
  once := List.pairwise_map.mpr (nfa.apart_allStates.imp fun {first second} apart => by simpa using apart)
  found name state := by
    rw [find_eq_ok_iff, mem_allStates_iff]
    constructor
    · exact current_of_find?
    · rintro ⟨current, rfl⟩
      exact current
  start _ started := (find_eq_ok_iff ..).mpr (current_initial started)
  final _ present apart := (find_eq_ok_iff ..).mpr (distinct.current_final present apart)
  ordinary _ present behind := (find_eq_ok_iff ..).mpr (distinct.current_ordinary present behind)

end Names

section Triples

/-- The triples that the automaton lists, and how they tell where a name leads. -/
structure Lists (nfa : NFA) (triples : List (String × Label × String)) : Prop where
  listed : nfa.triples = .ok triples
  once : Apart triples
  ordered : triples.Pairwise fun first second => first.1 ≤ second.1
  leads : ∀ operand name, operand.name? = some (.text name) → (nfa.find? (.text name)).isSome = true →
    ∀ symbol, (symbol == nfa.epsilon) = false → ∃ names, nfa.successorNames operand symbol = .ok names ∧
      ∀ target, target ∈ names ↔ triples.contains (name, symbol, target) = true

theorem apart_sortedStates (nfa : NFA) : Apart nfa.sortedStates :=
  nfa.apart_allStates.of_perm (sortOn_perm State.name nfa.allStates).symm

/-- The triples that begin at a state, label by label. -/
def triplesFrom (nfa : NFA) (source : State) : List (String × Label × String) :=
  (nfa.graph.labels source).flatMap fun label =>
    (sortOn State.name (nfa.graph.targets source label)).map fun target => (source.name, label, target.name)

theorem begins_of_mem_triplesFrom {source : State} {triple : String × Label × String}
    (present : triple ∈ nfa.triplesFrom source) : triple.1 = source.name := by
  obtain ⟨label, -, here⟩ := List.mem_flatMap.mp present
  obtain ⟨target, -, rfl⟩ := List.mem_map.mp here
  rfl

theorem Distinct.apart_triplesFrom (distinct : nfa.Distinct) (source : State) : Apart (nfa.triplesFrom source) := by
  refine apart_flatMap id ?_ (fun label _ => ?_) ?_
  · rw [List.map_id]
    exact nfa.graph.apart_labels source
  · have targets := (distinct.plain source label).of_perm (sortOn_perm State.name _).symm
    exact apart_map targets fun _ _ same => ((prod_beq_iff ..).mp ((prod_beq_iff ..).mp same).2).2
  · rintro _ _ _ here _ there same
    obtain ⟨_, -, rfl⟩ := List.mem_map.mp here
    obtain ⟨_, -, rfl⟩ := List.mem_map.mp there
    exact ((prod_beq_iff ..).mp ((prod_beq_iff ..).mp same).2).1

theorem Distinct.apart_triples (distinct : nfa.Distinct) : Apart (nfa.sortedStates.flatMap nfa.triplesFrom) := by
  refine apart_flatMap State.name (apart_map nfa.apart_sortedStates fun _ _ same => same)
    (fun source _ => distinct.apart_triplesFrom source) ?_
  intro _ _ _ here _ there same
  rw [← begins_of_mem_triplesFrom here, ← begins_of_mem_triplesFrom there]
  exact ((prod_beq_iff ..).mp same).1

theorem pairwise_triples (nfa : NFA) :
    (nfa.sortedStates.flatMap nfa.triplesFrom).Pairwise fun first second => first.1 ≤ second.1 := by
  refine List.pairwise_flatMap.mpr ⟨fun source _ => ?_, ?_⟩
  · refine List.pairwise_of_forall_mem_list fun first here second there => ?_
    have same : first.1 = second.1 :=
      (begins_of_mem_triplesFrom here).trans (begins_of_mem_triplesFrom there).symm
    exact same ▸ String.le_refl first.1
  · refine (sortOn_pairwise State.name nfa.allStates).imp fun {first second} ordered triple here other there => ?_
    rw [begins_of_mem_triplesFrom here, begins_of_mem_triplesFrom there]
    exact ordered

variable {triples : List (String × Label × String)}

theorem contains_triples_iff (listed : nfa.triples = .ok triples) (source target : String) (symbol : Label) :
    triples.contains (source, symbol, target) = true ↔
      ∃ label, (label == symbol) = true ∧ nfa.Shows (source, label, target) := by
  simp only [List.contains_iff_exists_mem_beq, prod_beq_iff, Shows, listed, Except.ok.injEq, exists_eq_left']
  constructor
  · rintro ⟨⟨_, label, _⟩, present, begins, reads, ends⟩
    obtain rfl := eq_of_beq begins
    obtain rfl := eq_of_beq ends
    exact ⟨label, BEq.symm reads, present⟩
  · rintro ⟨label, reads, present⟩
    exact ⟨_, present, BEq.rfl, BEq.symm reads, BEq.rfl⟩

theorem contains_triples_iff_exists_target (sound : nfa.graph.Sound) (listed : nfa.triples = .ok triples)
    (source target : String) (symbol : Label) : triples.contains (source, symbol, target) = true ↔
      ∃ origin, nfa.Current origin ∧ origin.name = source ∧
        ∃ goal ∈ nfa.graph.targets origin symbol, goal.name = target := by
  rw [contains_triples_iff listed]
  constructor
  · rintro ⟨label, reads, shown⟩
    obtain ⟨origin, current, rfl, -⟩ := (shows_iff sound ..).mp shown
    exact ⟨origin, current, rfl, (exists_target_iff_shows sound current symbol target).mpr ⟨label, reads, shown⟩⟩
  · rintro ⟨origin, current, rfl, leads⟩
    exact (exists_target_iff_shows sound current symbol target).mp leads

theorem Distinct.lists (distinct : nfa.Distinct) (sound : nfa.graph.Sound) : ∃ triples, nfa.Lists triples := by
  have listed : nfa.triples = .ok (nfa.sortedStates.flatMap nfa.triplesFrom) := triples_of_sound sound
  refine ⟨_, listed, distinct.apart_triples, nfa.pairwise_triples, fun operand name named known symbol real => ?_⟩
  obtain ⟨names, given, told⟩ := exists_successorNames sound named known real
  refine ⟨names, given, fun target => ?_⟩
  rw [told, contains_triples_iff listed]

/-- A transition that is added shows its own triple and otherwise what was shown before. -/
theorem Regular.triples_addTransition (regular : nfa.Regular) {source label target : Label}
    (success : nfa.perform (.addTransition source label target) = .ok changed) :
    ∃ origin goal earlier later, source = .text origin ∧ target = .text goal ∧ nfa.triples = .ok earlier ∧
      changed.triples = .ok later ∧
        ∀ triple, later.contains triple = (earlier.contains triple || triple == (origin, label, goal)) := by
  have sound := (regular.perform success).sound
  cases effect_of_perform success with
  | addTransition _ _ _ origin goal sourceFound targetFound =>
  obtain ⟨originCurrent, rfl⟩ := current_of_find? sourceFound
  obtain ⟨goalCurrent, rfl⟩ := current_of_find? targetFound
  have earlier := triples_of_sound regular.sound
  have later := triples_of_sound sound
  refine ⟨_, _, _, _, rfl, rfl, earlier, later, fun triple => ?_⟩
  obtain ⟨first, symbol, last⟩ := triple
  rw [Bool.eq_iff_iff, Bool.or_eq_true, contains_triples_iff_exists_target sound later,
    contains_triples_iff_exists_target regular.sound earlier]
  simp only [prod_beq_iff, beq_iff_eq]
  -- names stand for the same states as before
  constructor
  · rintro ⟨state, current, rfl, leads⟩
    rcases (Graph.exists_target_connect ..).mp leads with old | ⟨⟨serial, reads⟩, named⟩
    · exact .inl ⟨state, current, rfl, old⟩
    · have here : nfa.Current state := current
      have same : origin = state := regular.single origin (List.mem_append_left _ originCurrent.declared) state
        (List.mem_append_left _ here.declared) serial
      exact .inr ⟨by rw [same], BEq.symm reads, named.symm⟩
  · rintro (⟨state, current, rfl, leads⟩ | ⟨rfl, reads, rfl⟩)
    · exact ⟨state, current, rfl, (Graph.exists_target_connect ..).mpr (.inl leads)⟩
    · exact ⟨origin, originCurrent, rfl,
        (Graph.exists_target_connect ..).mpr (.inr ⟨⟨rfl, BEq.symm reads⟩, rfl⟩)⟩

end Triples

/-- After any run one state is listed for each name and each edge that is shown once, and a transition that is added
adds its own triple. -/
theorem listed_replay {epsilon : Label} {symbols : List Label} {fresh : NFA}
    (created : create epsilon symbols .empty = .ok fresh) (commands : List Command) :
    (fresh.replay commands).NamesOnce ∧ (∃ triples, (fresh.replay commands).Lists triples) ∧
      ∀ source label target changed,
        (fresh.replay commands).perform (.addTransition source label target) = .ok changed →
          ∃ origin goal earlier later, source = .text origin ∧ target = .text goal ∧
            (fresh.replay commands).triples = .ok earlier ∧ changed.triples = .ok later ∧
            ∀ triple, later.contains triple = (earlier.contains triple || triple == (origin, label, goal)) := by
  have regular := (regular_of_create created).replay commands
  have distinct := distinct_replay created commands
  exact ⟨distinct.namesOnce, distinct.lists regular.sound,
    fun _ _ _ _ success => regular.triples_addTransition success⟩

/-- A run with an ordinary, a final and a start state of one name, and an edge that is asked for under equal labels. -/
def redeclared : List Command := [.addState (.text "x"), .addState (.text "y"), .addFinal (.text "x"),
  .addTransition (.text "x") (.text "a") (.text "x"), .setStart (.text "x"),
  .addTransition (.text "x") (.int 1) (.text "y"), .addTransition (.text "x") (.truth true) (.text "y")]

theorem listed_replay_redeclared :
    create standardEpsilon [] .empty = .ok (empty standardEpsilon .empty) ∧
      (∃ start, ((empty standardEpsilon .empty).replay redeclared).find (.text "x") = .ok start ∧
        start ∈ ((empty standardEpsilon .empty).replay redeclared).allStates ∧ start.serial = 3) ∧
      (((empty standardEpsilon .empty).replay redeclared).allStates.map State.name).Nodup ∧
      ((empty standardEpsilon .empty).replay redeclared).Lists [("x", .int 1, "y")] ∧
      ∃ changed later, ((empty standardEpsilon .empty).replay redeclared).perform
          (.addTransition (.text "y") (.text "b") (.text "x")) = .ok changed ∧ changed.triples = .ok later ∧
        ∀ triple, later.contains triple =
          (List.contains [("x", .int 1, "y")] triple || triple == ("y", .text "b", "x")) := by
  have created : create standardEpsilon [] .empty = .ok (empty standardEpsilon .empty) := rfl
  obtain ⟨names, ⟨triples, lists⟩, adds⟩ := listed_replay created redeclared
  have shown : ((empty standardEpsilon .empty).replay redeclared).triples = .ok [("x", .int 1, "y")] := by rfl
  obtain rfl := Except.ok.inj (lists.listed.symm.trans shown)
  have found : ((empty standardEpsilon .empty).replay redeclared).find (.text "x") =
      .ok ⟨3, "x", by decide⟩ := by rfl
  refine ⟨created, ⟨_, found, ((names.found _ _).mp found).1, rfl⟩, names.once, lists, ?_⟩
  obtain ⟨origin, goal, earlier, later, begins, ends, before, after, told⟩ :=
    adds (.text "y") (.text "b") (.text "x") _ rfl
  obtain rfl := Label.text.inj begins
  obtain rfl := Label.text.inj ends
  obtain rfl := Except.ok.inj (before.symm.trans shown)
  exact ⟨_, later, rfl, after, told⟩

end NFA

end FiniteAutomata
