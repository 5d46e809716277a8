import FiniteAutomata.Proofs.DFA.Relabelling
import FiniteAutomata.Proofs.Exploration.Breadth
import Mathlib.Data.List.Induction
import Mathlib.Data.Set.Function

set_option autoImplicit false

/-!
The numbers that the states of a deterministic automaton get. The copy under these numbers is isomorphic to the
automaton, and the states come in the order of their distances from the start, those out of reach at the end.
-/

namespace FiniteAutomata

namespace DFA

/-- The word leads from the start to the state, up to equality. -/
def Leads (dfa : DFA) (word : List Label) (state : Label) : Prop :=
  ∃ reached, dfa.follow dfa.initial word = some reached ∧ (reached == state) = true

def Reachable (dfa : DFA) (state : Label) : Prop :=
  ∃ word, dfa.Leads word state

/-- The state is so many moves away from the start, and no fewer. -/
def Distance (dfa : DFA) (state : Label) (steps : Nat) : Prop :=
  (∃ word, word.length = steps ∧ dfa.Leads word state) ∧ ∀ word, dfa.Leads word state → steps ≤ word.length

variable {dfa : DFA}

theorem Leads.congr {word : List Label} {state other : Label} (leads : dfa.Leads word state)
    (same : (state == other) = true) : dfa.Leads word other := by
  obtain ⟨reached, follows, equal⟩ := leads
  exact ⟨reached, follows, BEq.trans equal same⟩

section Search

theorem moves_congr_state (dfa : DFA) {state other : Label} (same : (state == other) = true) :
    dfa.moves state = dfa.moves other := by
  rw [moves, moves, dfa.states.get?_congr same]

theorem successors_breadthSearch (dfa : DFA) (state other : Label) (same : (state == other) = true) :
    dfa.breadthSearch.successors state = dfa.breadthSearch.successors other := by
  simp only [breadthSearch, sortedTargets, dfa.moves_congr_state same]

theorem Regular.apart_moves (regular : dfa.Regular) (state : Label) : Apart (dfa.moves state).keys := by
  cases known : dfa.states.get? state with
  | none => simp [moves, known, Table.keys, Table.empty, Apart]
  | some node => simpa [moves, known] using (regular.nodes state node known).moves

theorem Regular.mem_sortedTargets (regular : dfa.Regular) (state target : Label) :
    target ∈ dfa.sortedTargets state ↔ ∃ symbol, dfa.target? state symbol = some target := by
  simp only [sortedTargets, List.mem_map, mem_sortOn]
  constructor
  · rintro ⟨⟨symbol, goal⟩, present, rfl⟩
    exact ⟨symbol, Table.get?_of_mem (regular.apart_moves state) present BEq.rfl⟩
  · rintro ⟨symbol, leads⟩
    obtain ⟨known, present⟩ := Table.exists_entry_of_get? leads
    exact ⟨(known, target), present, rfl⟩

theorem bounded_breadthSearch (dfa : DFA) :
    dfa.breadthSearch.Bounded [dfa.initial] (dfa.transitionTable.length + 1) := by
  refine Search.bounded_of_mem (dfa.initial :: dfa.transitionTable.map Prod.snd) ?_ (by simp)
  intro state reached
  cases reached with
  | seed given => exact List.mem_cons.mpr (.inl (List.mem_singleton.mp given))
  | @step source _ _ follows =>
      refine List.mem_cons_of_mem _ ?_
      obtain ⟨⟨symbol, target⟩, present, rfl⟩ := List.mem_map.mp follows
      rw [mem_sortOn] at present
      cases known : dfa.states.get? source with
      | none => simp [moves, known, Table.empty] at present
      | some node =>
          obtain ⟨origin, entry⟩ := Table.exists_entry_of_get? known
          have move : (symbol, target) ∈ node.moves.entries := by simpa [moves, known] using present
          exact List.mem_map.mpr ⟨((origin, symbol), target),
            List.mem_flatMap.mpr ⟨_, entry, List.mem_map_of_mem move⟩, rfl⟩

theorem refused_breadthSearch (dfa : DFA) (fuel : Nat) :
    (dfa.breadthSearch.run fuel [dfa.initial]).refused = none :=
  Search.refused_run (P := fun _ => True) (fun _ _ _ => rfl) (fun _ _ => rfl) (fun _ _ _ _ => trivial) _ _
    (fun _ _ => trivial)

theorem explored_breadthSearch (dfa : DFA) : dfa.breadthSearch.Explored [dfa.initial]
    (dfa.breadthSearch.run (dfa.transitionTable.length + 1) [dfa.initial]) :=
  Search.explored_run dfa.bounded_breadthSearch

theorem Regular.within_iff (regular : dfa.Regular) (steps : Nat) (state : Label) :
    dfa.breadthSearch.Within [dfa.initial] steps state ↔
      ∃ word, word.length ≤ steps ∧ dfa.Leads word state := by
  constructor
  · intro within
    induction within with
    | seed given same =>
        obtain rfl := List.mem_singleton.mp given
        exact ⟨[], Nat.zero_le _, _, rfl, same⟩
    | @step steps source next element _ follows same ih =>
        obtain ⟨word, short, reached, path, equal⟩ := ih
        obtain ⟨symbol, leads⟩ := (regular.mem_sortedTargets source next).mp follows
        rw [← dfa.target?_congr equal BEq.rfl] at leads
        refine ⟨word ++ [symbol], by simpa using short, next, ?_, same⟩
        simp [follow_append, path, leads]
  · -- the last letter of a word is the last step
    rintro ⟨word, short, leads⟩
    induction word using List.reverseRecOn generalizing steps state with
    | nil =>
        obtain ⟨reached, path, same⟩ := leads
        obtain rfl := Option.some.inj path
        exact .seed (List.mem_singleton_self _) same
    | append_singleton word symbol ih =>
        obtain ⟨reached, path, same⟩ := leads
        rw [follow_append] at path
        obtain ⟨middle, before, last⟩ := Option.bind_eq_some_iff.mp path
        obtain ⟨target, leads, ends⟩ := Option.bind_eq_some_iff.mp last
        obtain rfl := Option.some.inj ends
        cases steps with
        | zero => simp at short
        | succ steps =>
            refine .step (ih steps middle (by simpa using short) ⟨middle, before, BEq.rfl⟩) ?_ same
            exact (regular.mem_sortedTargets middle target).mpr ⟨symbol, leads⟩

theorem Regular.contains_reached (regular : dfa.Regular) (state : Label) :
    dfa.reached.contains state = true ↔ dfa.Reachable state := by
  rw [List.contains_iff_exists_mem_beq]
  constructor
  · rintro ⟨known, present, same⟩
    have met := dfa.explored_breadthSearch.reached known (List.mem_reverse.mp present)
    obtain ⟨steps, within⟩ := met.exists_within
    obtain ⟨word, -, leads⟩ := (regular.within_iff steps known).mp within
    exact ⟨word, leads.congr (BEq.symm same)⟩
  · rintro ⟨word, leads⟩
    have within := (regular.within_iff word.length state).mpr ⟨word, le_rfl, leads⟩
    obtain ⟨known, present, same⟩ := dfa.explored_breadthSearch.exists_met dfa.successors_breadthSearch
      (dfa.refused_breadthSearch _) within
    exact ⟨known, List.mem_reverse.mpr present, BEq.symm same⟩

theorem apart_reached (dfa : DFA) : Apart dfa.reached :=
  List.pairwise_reverse.mpr dfa.explored_breadthSearch.distinct

theorem head?_reached (dfa : DFA) : dfa.reached.head? = some dfa.initial := by
  rw [reached, Exploration.found, List.head?_reverse]
  exact dfa.explored_breadthSearch.first (dfa.refused_breadthSearch _)

/-- Whatever word leads to the later state, one that is no longer leads to the earlier. -/
def Sooner (dfa : DFA) (earlier later : Label) : Prop :=
  ∀ word, dfa.Leads word later → ∃ other, other.length ≤ word.length ∧ dfa.Leads other earlier

theorem Regular.pairwise_reached (regular : dfa.Regular) : dfa.reached.Pairwise dfa.Sooner := by
  have nearer := (Search.ends_run dfa.bounded_breadthSearch).pairwise_nearer dfa.successors_breadthSearch rfl
    (dfa.refused_breadthSearch _)
  refine nearer.imp fun {earlier later} nearer word leads => ?_
  exact (regular.within_iff ..).mp (nearer word.length ((regular.within_iff ..).mpr ⟨word, le_rfl, leads⟩))

end Search

section Order

theorem Regular.hasState_follow (regular : dfa.Regular) {state reached : Label} {word : List Label}
    (known : dfa.hasState state = true) (path : dfa.follow state word = some reached) :
    dfa.hasState reached = true := by
  induction word generalizing state with
  | nil => exact Option.some.inj path ▸ known
  | cons symbol rest ih =>
      obtain ⟨target, leads, onward⟩ := Option.bind_eq_some_iff.mp path
      exact ih (regular.target leads).2.2.2 onward

theorem Regular.hasState_of_reachable (regular : dfa.Regular) (started : dfa.hasState dfa.initial = true)
    {state : Label} (reachable : dfa.Reachable state) : dfa.hasState state = true := by
  obtain ⟨word, reached, path, same⟩ := reachable
  rw [← hasState_congr same]
  exact regular.hasState_follow started path

theorem mem_leftover {state : Label} :
    state ∈ sortOn Label.plain (dfa.states.keys.filter fun state => !dfa.reached.contains state) ↔
      state ∈ dfa.states.keys ∧ dfa.reached.contains state = false := by
  rw [mem_sortOn, List.mem_filter, Bool.not_eq_true']

theorem Regular.contains_numbered (regular : dfa.Regular) (started : dfa.hasState dfa.initial = true)
    (state : Label) : dfa.numbered.contains state = dfa.hasState state := by
  rw [Bool.eq_iff_iff, List.contains_iff_exists_mem_beq]
  constructor
  · rintro ⟨known, present, same⟩
    rw [hasState_congr same]
    rcases List.mem_append.mp present with found | left
    · have reachable := (regular.contains_reached known).mp
        (List.contains_iff_exists_mem_beq.mpr ⟨known, found, BEq.rfl⟩)
      exact regular.hasState_of_reachable started reachable
    · exact (hasState_iff ..).mpr ⟨known, (mem_leftover.mp left).1, BEq.rfl⟩
  · intro known
    obtain ⟨key, present, same⟩ := (hasState_iff ..).mp known
    cases met : dfa.reached.contains key with
    | true =>
        obtain ⟨found, here, equal⟩ := List.contains_iff_exists_mem_beq.mp met
        exact ⟨found, List.mem_append_left _ here, BEq.trans (BEq.symm same) equal⟩
    | false => exact ⟨key, List.mem_append_right _ (mem_leftover.mpr ⟨present, met⟩), BEq.symm same⟩

theorem Regular.apart_numbered (regular : dfa.Regular) : Apart dfa.numbered := by
  refine List.pairwise_append.mpr ⟨dfa.apart_reached, ?_, fun known found state left => ?_⟩
  · have keys : Apart (dfa.states.keys.filter fun state => !dfa.reached.contains state) :=
      regular.states.sublist List.filter_sublist
    exact keys.of_perm (sortOn_perm ..).symm
  · apply Bool.eq_false_iff.mpr
    intro same
    have met := List.contains_iff_exists_mem_beq.mpr ⟨known, found, BEq.symm same⟩
    simp [(mem_leftover.mp left).2] at met

theorem Regular.pairwise_numbered (regular : dfa.Regular) : dfa.numbered.Pairwise dfa.Sooner := by
  -- what is left over is out of reach, so that no word leads there
  have late (state later : Label)
      (left : later ∈ sortOn Label.plain (dfa.states.keys.filter fun state => !dfa.reached.contains state)) :
      dfa.Sooner state later := by
    intro word leads
    have met := (regular.contains_reached later).mpr ⟨word, leads⟩
    simp [(mem_leftover.mp left).2] at met
  refine List.pairwise_append.mpr ⟨regular.pairwise_reached, ?_, fun state _ => late state⟩
  exact List.pairwise_of_forall_mem_list fun state _ => late state

theorem Regular.length_numbered (regular : dfa.Regular) (started : dfa.hasState dfa.initial = true) :
    dfa.numbered.length = dfa.size := by
  have size : dfa.size = dfa.states.keys.length := by simp [size, Table.size, Table.keys]
  have covers := regular.contains_numbered started
  rw [size]
  refine le_antisymm (length_le_of_apart regular.apart_numbered fun state present => ?_)
    (length_le_of_apart regular.states fun state present => ?_)
  · rw [← Table.contains_eq_contains_keys]
    refine (covers state).symm.trans ?_
    exact List.contains_iff_exists_mem_beq.mpr ⟨state, present, BEq.rfl⟩
  · rw [covers]
    exact (hasState_iff ..).mpr ⟨state, present, BEq.rfl⟩

def number (dfa : DFA) (base : Int) (state : Label) : Int :=
  base + dfa.numbered.findIdx (· == state)

theorem Regular.relabels_numbered (regular : dfa.Regular) (started : dfa.hasState dfa.initial = true)
    (base : Int) : dfa.Relabels dfa.numbered (numberIn dfa.numbered base) where
  regular := regular
  apart := regular.apart_numbered
  covers := regular.contains_numbered started
  faithful state other here there := by
    rw [Bool.eq_iff_iff, ← findIdx_eq_iff ((regular.contains_numbered started state).trans here)]
    simp only [numberIn, Label.beq_iff, Label.normal, Label.int.injEq]
    omega

theorem Regular.number_lt (regular : dfa.Regular) (started : dfa.hasState dfa.initial = true) (base : Int)
    {near far : Label} {word : List Label} (leads : dfa.Leads word near) (known : dfa.hasState far = true)
    (farther : ∀ other, dfa.Leads other far → word.length < other.length) :
    dfa.number base near < dfa.number base far := by
  have nearKnown := regular.hasState_of_reachable started ⟨word, leads⟩
  have nearWithin := findIdx_lt_length ((regular.contains_numbered started near).trans nearKnown)
  have farWithin := findIdx_lt_length ((regular.contains_numbered started far).trans known)
  have nearHere : (dfa.numbered[dfa.numbered.findIdx (· == near)] == near) = true :=
    @List.findIdx_getElem _ (· == near) _ nearWithin
  have farHere : (dfa.numbered[dfa.numbered.findIdx (· == far)] == far) = true :=
    @List.findIdx_getElem _ (· == far) _ farWithin
  have earlier : dfa.numbered.findIdx (· == near) < dfa.numbered.findIdx (· == far) := by
    rcases Nat.lt_trichotomy (dfa.numbered.findIdx (· == near)) (dfa.numbered.findIdx (· == far)) with
      before | same | after
    · exact before
    · -- equal places are places of equal states
      have equal := (findIdx_eq_iff ((regular.contains_numbered started near).trans nearKnown)).mp same
      exact absurd (farther word (leads.congr equal)) (lt_irrefl _)
    · have sooner := List.pairwise_iff_getElem.mp regular.pairwise_numbered _ _ farWithin nearWithin after
      obtain ⟨other, short, path⟩ := sooner word (leads.congr (BEq.symm nearHere))
      exact absurd (farther other (path.congr farHere)) (not_lt.mpr short)
  simp only [number]
  omega

end Order

/-- The copy is the automaton with its states under consecutive numbers, those nearer to the start first. -/
structure Numbering (dfa copy : DFA) (base : Int) (number : Label → Int) : Prop where
  isomorphic : dfa.IsomorphicBy copy fun state => .int (number state)
  bijective : Set.BijOn number {state | state ∈ dfa.states.keys}
    {place | base ≤ place ∧ place < base + dfa.size}
  states : copy.states.keys = (List.range dfa.size).map fun place => .int (base + place)
  start : number dfa.initial = base
  initial : copy.initial = .int base
  members : ∀ state, dfa.hasState state = true → copy.members (.int (number state)) = dfa.members state
  alphabet : copy.alphabet.Perm dfa.alphabet
  epsilon : copy.epsilon = dfa.epsilon
  made : (empty copy.initial copy.epsilon).performAll copy.calls = .ok copy
  reachableFirst : ∀ near far, dfa.Reachable near → dfa.hasState far = true → ¬ dfa.Reachable far →
    number near < number far
  nearerFirst : ∀ near far steps more, dfa.Distance near steps → dfa.Distance far more → steps < more →
    number near < number far
  accept : dfa.hasState .null = false → ∀ word, copy.accept word = dfa.accept word

theorem Regular.bijOn_number (regular : dfa.Regular) (started : dfa.hasState dfa.initial = true) (base : Int) :
    Set.BijOn (dfa.number base) {state | state ∈ dfa.states.keys}
      {place | base ≤ place ∧ place < base + dfa.size} := by
  have key {state : Label} (present : state ∈ dfa.states.keys) : dfa.numbered.contains state = true :=
    (regular.contains_numbered started state).trans ((hasState_iff ..).mpr ⟨state, present, BEq.rfl⟩)
  refine ⟨?_, ?_, ?_⟩
  · intro state present
    have within := findIdx_lt_length (key present)
    rw [regular.length_numbered started] at within
    show base ≤ dfa.number base state ∧ dfa.number base state < base + dfa.size
    simp only [number]
    omega
  · intro state present other there same
    have places : dfa.numbered.findIdx (· == state) = dfa.numbered.findIdx (· == other) := by
      simp only [number] at same
      omega
    exact regular.states.eq present there ((findIdx_eq_iff (key present)).mp places)
  · rintro number ⟨least, most⟩
    obtain ⟨place, rfl⟩ : ∃ place : Nat, number = base + place := ⟨(number - base).toNat, by omega⟩
    have inside : place < dfa.numbered.length := by
      rw [regular.length_numbered started]
      omega
    have known : dfa.hasState dfa.numbered[place] = true :=
      (regular.relabels_numbered started base).hasState_of_mem (List.getElem_mem inside)
    obtain ⟨state, present, same⟩ := (hasState_iff ..).mp known
    refine ⟨state, present, ?_⟩
    rw [DFA.number, findIdx_congr same, findIdx_getElem_of_apart regular.apart_numbered inside]

theorem Regular.keys_relabel_numbered (regular : dfa.Regular) (started : dfa.hasState dfa.initial = true)
    (base : Int) : (dfa.relabel dfa.numbered (numberIn dfa.numbered base)).states.keys =
      (List.range dfa.size).map fun place => .int (base + place) := by
  rw [(regular.relabels_numbered started base).keys, ← regular.length_numbered started]
  refine List.ext_getElem (by simp) fun place _ within => ?_
  have inside : place < dfa.numbered.length := by simpa using within
  simp [numberIn, findIdx_getElem_of_apart regular.apart_numbered inside]

theorem number_initial (dfa : DFA) (base : Int) : dfa.number base dfa.initial = base := by
  have first : dfa.numbered.head? = some dfa.initial := by
    rw [numbered, List.head?_append, dfa.head?_reached, Option.some_or]
  obtain ⟨rest, split⟩ := List.head?_eq_some_iff.mp first
  simp [number, split, List.findIdx_cons]

theorem Regular.numbering (regular : dfa.Regular) (started : dfa.hasState dfa.initial = true) (base : Int) :
    Numbering dfa (dfa.relabel dfa.numbered (numberIn dfa.numbered base)) base (dfa.number base) := by
  have relabels := regular.relabels_numbered started base
  have keys := regular.keys_relabel_numbered started base
  refine ⟨relabels.isomorphicBy, regular.bijOn_number started base, keys, dfa.number_initial base,
    congrArg Label.int (dfa.number_initial base), fun _ => relabels.members, sortOn_perm .., rfl,
    relabels.performAll_calls, ?_, ?_, ?_⟩
  · rintro near far ⟨word, leads⟩ known unreachable
    exact regular.number_lt started base leads known fun other path => absurd ⟨other, path⟩ unreachable
  · rintro near far steps more ⟨⟨word, rfl, leads⟩, -⟩ ⟨⟨path, -, arrives⟩, least⟩ fewer
    refine regular.number_lt started base leads (regular.hasState_of_reachable started ⟨path, arrives⟩) ?_
    exact fun other onward => lt_of_lt_of_le fewer (least other onward)
  · intro stuck word
    refine relabels.isomorphicBy.accept_eq regular relabels.regular_copy rfl started stuck ?_ word
    -- the states of the copy are numbers
    apply Bool.eq_false_iff.mpr
    intro null
    obtain ⟨key, present, same⟩ := (hasState_iff ..).mp null
    rw [keys] at present
    obtain ⟨place, -, rfl⟩ := List.mem_map.mp present
    exact Bool.noConfusion same

theorem renumber_of_known (started : dfa.hasState dfa.initial = true) (base : Int) :
    dfa.renumber base = .ok (dfa.relabel dfa.numbered (numberIn dfa.numbered base)) := by
  simp [renumber, checkState, started, bind, Except.bind, pure, Except.pure]

theorem renumber_isomorphic (initial epsilon : Label) (commands : List Command) (base : Int) :
    (((empty initial epsilon).replay commands).renumber base = .error (.unknownState initial) ↔
      ¬ Added commands initial) ∧
    (Added commands initial → ∃ copy number,
      ((empty initial epsilon).replay commands).renumber base = .ok copy ∧
        Numbering ((empty initial epsilon).replay commands) copy base number) := by
  have regular := (regular_empty initial epsilon).replay commands
  have added := hasState_replay (empty initial epsilon) commands initial
  have begun : ((empty initial epsilon).replay commands).initial = initial :=
    (frame_replay (empty initial epsilon) commands).1
  generalize (empty initial epsilon).replay commands = dfa at regular added begun ⊢
  subst begun
  have started : dfa.hasState dfa.initial = true ↔ Added commands dfa.initial := by
    simpa [hasState, empty, Table.contains] using added
  refine ⟨⟨fun stopped present => ?_, fun absent => ?_⟩, fun present =>
    ⟨_, _, renumber_of_known (started.mpr present) base, regular.numbering (started.mpr present) base⟩⟩
  · rw [renumber_of_known (started.mpr present)] at stopped
    simp at stopped
  · have unknown : dfa.hasState dfa.initial = false := Bool.eq_false_iff.mpr fun here =>
      absent (started.mp here)
    simp [renumber, checkState, unknown, bind, Except.bind]

/-- Calls that add a state out of reach, one under two equal names, and a move that stays where it is. -/
def mixedNames : List Command := [.addState (.text "far") [], .addFinal (.truth true) [.text "q"],
  .addState (.text "s") [], .addTransition (.text "s") (.text "b") (.int 1),
  .addTransition (.int 1) (.text "a") (.truth true)]

theorem renumber_isomorphic_mixedNames :
    Added mixedNames (.text "s") ∧
      ∃ copy number, ((empty (.text "s") .null).replay mixedNames).renumber 10 = .ok copy ∧
        Numbering ((empty (.text "s") .null).replay mixedNames) copy 10 number ∧
        number (.int 1) < number (.text "far") := by
  have added : Added mixedNames (.text "s") := ⟨.addState (.text "s") [], by simp [mixedNames], BEq.rfl⟩
  obtain ⟨copy, number, copied, numbering⟩ := (renumber_isomorphic (.text "s") .null mixedNames 10).2 added
  refine ⟨added, copy, number, copied, numbering, numbering.reachableFirst _ _ ?_ (by rfl) fun reachable => ?_⟩
  · exact ⟨[.text "b"], _, rfl, by rfl⟩
  · have regular := (regular_empty (.text "s") .null).replay mixedNames
    have missed : ((empty (.text "s") .null).replay mixedNames).reached.contains (.text "far") = false := by rfl
    simp [(regular.contains_reached _).mpr reachable] at missed

end DFA

end FiniteAutomata
