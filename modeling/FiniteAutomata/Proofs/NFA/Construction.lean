import FiniteAutomata.Proofs.NFA.Building

set_option autoImplicit false

/-!
The subset construction that is carried out step by step makes the automaton that is assembled from all the sets at
once, and its messages are those that tell of the sets afterwards. It expands the sets that the search expands, in the
same order, and where the search is stopped it fails.
-/

namespace FiniteAutomata

namespace NFA

/-- How a part of the construction ends: with all that it is to make, or at a set that is refused, and then with the
messages that it is to have sent. -/
inductive Ends (whole : Building) : Option Composite → EStateM.Result Error Building Unit → Prop where
  | through : Ends whole none (.ok () whole)
  | stopped {refused : Composite} {building : Building} : building.log = whole.log →
      Ends whole (some refused) (.error (refused.fault.getD (.sharedName refused.name)) building)

theorem Ends.eq_ok {whole : Building} {result : EStateM.Result Error Building Unit} (ends : Ends whole none result) :
    result = .ok () whole := by
  cases ends
  rfl

theorem Ends.exists_error {whole : Building} {refused : Composite} {result : EStateM.Result Error Building Unit}
    (ends : Ends whole (some refused) result) : ∃ building, building.log = whole.log ∧
      result = .error (refused.fault.getD (.sharedName refused.name)) building := by
  cases ends with
  | @stopped _ building log => exact ⟨building, log, rfl⟩

section Loops

variable {nfa : NFA} {naming : Naming} {start : List State} {current : Composite}
  {base : String → Table Label Label} {met : List Composite}

/-- While `current` is expanded, and some of the symbols have been read. -/
def amid (nfa : NFA) (naming : Naming) (start : List State) (current : Composite)
    (base : String → Table Label Label) (met pending : List Composite) (read : List Label) : Building :=
  nfa.underway naming start met pending (Function.update base current.name (nfa.movesOn naming read current))

section Symbol

variable {pending : List Composite} {target : Composite} {read unread : List Label} {symbol : Label}
  (regular : nfa.Regular) (alphabet : Apart nfa.alphabet) (here : current ∈ met)
  (split : read ++ symbol :: unread = nfa.alphabet)
  (leads : nfa.successor? naming current.states symbol = some target) (sane : target.fault = none)
include regular alphabet here split leads sane

theorem lead_of_new (untouched : ∀ name, (∀ known ∈ met, known.name ≠ name) → base name = .empty)
    (new : met.find? (· == target) = none) :
    nfa.lead naming current symbol (nfa.amid naming start current base met pending read) =
      .ok () (nfa.amid naming start current base (target :: met) (target :: pending) (read ++ [symbol])) := by
  have lettered : symbol ∈ nfa.alphabet := by simp [← split]
  have unknown : ∀ known ∈ met, known.name ≠ target.name := by simpa using List.find?_eq_none.mp new
  have unmoved : Function.update base current.name (nfa.movesOn naming read current) target.name = .empty := by
    rw [Function.update_of_ne (unknown current here).symm]
    exact untouched _ unknown
  have received : nfa.receive target (nfa.amid naming start current base met pending read) = _ :=
    receive_of_new (List.ne_nil_of_mem here) (nodup_members_of_successor leads sane) new unmoved
  rw [lead_of_admitted leads sane lettered (regular.real symbol lettered) received
    ⟨current, List.mem_cons_of_mem _ here, rfl⟩ ⟨target, List.mem_cons_self .., rfl⟩,
    Function.update_self, Function.update_idem, ← movesOn_concat alphabet split leads]
  rfl

theorem lead_of_known {known : Composite} (found : met.find? (· == target) = some known)
    (same : known.members = target.members) :
    nfa.lead naming current symbol (nfa.amid naming start current base met pending read) =
      .ok () (nfa.amid naming start current base met pending (read ++ [symbol])) := by
  have lettered : symbol ∈ nfa.alphabet := by simp [← split]
  have there : ∃ known ∈ met, known.name = target.name :=
    ⟨known, List.mem_of_find?_eq_some found, by simpa using List.find?_some found⟩
  have received : nfa.receive target (nfa.amid naming start current base met pending read) = _ :=
    receive_of_known found same
  rw [lead_of_admitted leads sane lettered (regular.real symbol lettered) received ⟨current, here, rfl⟩ there,
    Function.update_self, Function.update_idem, ← movesOn_concat alphabet split leads]
  rfl

end Symbol

/-- Which moves have been made while the sets in `pending` are still to be expanded. -/
structure Made (nfa : NFA) (naming : Naming) (met pending : List Composite) (moves : String → Table Label Label) :
    Prop where
  unknown : ∀ name, (∀ known ∈ met, known.name ≠ name) → moves name = .empty
  waiting : ∀ composite ∈ pending, moves composite.name = .empty
  distinct : Search.Distinct pending
  expanded : ∀ composite ∈ met, composite ∈ pending ∨
    moves composite.name = nfa.movesOn naming nfa.alphabet composite

theorem Made.step {seeds rest new : List Composite} (made : nfa.Made naming met (current :: rest) base)
    (progress : (nfa.compositeSearch naming).Progress seeds met (current :: rest))
    (meeting : (nfa.compositeSearch naming).Meeting met ((nfa.compositeSearch naming).successors current) new none) :
    nfa.Made naming (new ++ met) (new ++ rest)
      (Function.update base current.name (nfa.movesOn naming nfa.alphabet current)) := by
  obtain ⟨freshApart, -, across⟩ := List.pairwise_append.mp (meeting.distinct progress.distinct)
  obtain ⟨headApart, restApart⟩ := List.pairwise_cons.mp made.distinct
  have here := progress.waiting current (List.mem_cons_self ..)
  have known : ∀ composite ∈ rest, composite ∈ met := fun composite present =>
    progress.waiting composite (List.mem_cons_of_mem _ present)
  have apart : ∀ composite ∈ new, ∀ other ∈ met, other.name ≠ composite.name := by
    intro composite fresh other old same
    simpa [same] using across composite fresh other old
  refine ⟨?_, ?_, ?_, ?_⟩
  · intro name absent
    rw [Function.update_of_ne (absent current (List.mem_append_right _ here)).symm]
    exact made.unknown name fun other old => absent other (List.mem_append_right _ old)
  · intro composite present
    rcases List.mem_append.mp present with fresh | later
    · rw [Function.update_of_ne (apart composite fresh current here).symm]
      exact made.unknown _ (apart composite fresh)
    · have different : composite.name ≠ current.name := by
        intro same
        simpa [same] using headApart composite later
      rw [Function.update_of_ne different]
      exact made.waiting composite (List.mem_cons_of_mem _ later)
  · refine List.pairwise_append.mpr ⟨freshApart, restApart, fun composite fresh other later => ?_⟩
    exact across composite fresh other (known other later)
  · intro composite present
    rcases List.mem_append.mp present with fresh | old
    · exact .inl (List.mem_append_left _ fresh)
    · by_cases same : composite.name = current.name
      · obtain rfl := progress.distinct.eq old here (by simpa using same)
        rw [Function.update_self]
        exact .inr rfl
      · rw [Function.update_of_ne same]
        refine (made.expanded composite old).imp_left fun due => ?_
        rcases List.mem_cons.mp due with rfl | later
        · exact absurd rfl same
        · exact List.mem_append_right _ later

/-- The construction as far as a search has come that met nothing to refuse. -/
def finished (nfa : NFA) (naming : Naming) (start : List State) (met : List Composite) : Building :=
  ⟨nfa.assemble naming start met.reverse, met, [], narration naming start met⟩

theorem Made.underway_eq (made : nfa.Made naming met [] base) :
    nfa.underway naming start met [] base = nfa.finished naming start met := by
  rw [underway, finished, midway_of_complete fun composite here =>
    (made.expanded composite here).resolve_left (by simp)]

theorem Made.amid_eq {rest : List Composite} (made : nfa.Made naming met (current :: rest) base) :
    nfa.amid naming start current base met rest [] = nfa.underway naming start met rest base := by
  have unmoved : nfa.movesOn naming [] current = base current.name := by
    rw [made.waiting current (List.mem_cons_self ..)]
    rfl
  rw [amid, unmoved, Function.update_eq_self]

variable (regular : nfa.Regular) (alphabet : Apart nfa.alphabet)
include regular alphabet

theorem ends_forM_lead (rest fresh : List Composite) (read : List Label) {unread : List Label}
    {after new : List Composite} {refused : Option Composite} (here : current ∈ met)
    (untouched : ∀ name, (∀ known ∈ met, known.name ≠ name) → base name = .empty)
    (split : read ++ unread = nfa.alphabet)
    (result : (nfa.compositeSearch naming).meet met fresh
      (unread.filterMap (nfa.successor? naming current.states)) = (⟨after, refused⟩, new)) :
    Ends (nfa.amid naming start current base after (new ++ rest) nfa.alphabet) refused
      (unread.forM (nfa.lead naming current) (nfa.amid naming start current base met (fresh ++ rest) read)) := by
  -- one symbol after another is read, and what it leads to is met in the same step
  induction unread generalizing met fresh read with
  | nil =>
      obtain ⟨exploration, rfl⟩ := Prod.mk.inj result
      obtain ⟨rfl, rfl⟩ := Exploration.mk.inj exploration
      rw [List.append_nil] at split
      subst split
      exact .through
  | cons symbol later ih =>
      have onward : (read ++ [symbol]) ++ later = nfa.alphabet := by simpa using split
      cases leads : nfa.successor? naming current.states symbol with
      | none =>
          rw [List.filterMap_cons_none leads] at result
          have step : nfa.lead naming current symbol (nfa.amid naming start current base met (fresh ++ rest) read) =
              .ok () (nfa.amid naming start current base met (fresh ++ rest) (read ++ [symbol])) := by
            simp only [lead, leads, amid, movesOn_concat_of_none leads]
            rfl
          rw [forM_of_ok step]
          exact ih fresh _ here untouched onward result
      | some target =>
          rw [List.filterMap_cons_some leads] at result
          simp only [Search.meet] at result
          by_cases admitted : (nfa.compositeSearch naming).admits (met.find? (· == target)) target = true
          · rw [if_pos admitted] at result
            obtain ⟨sane, agrees⟩ : target.fault = none ∧
                (met.find? (· == target)).all (fun known => known.members == target.members) = true := by
              simpa [compositeSearch] using admitted
            cases found : met.find? (· == target) with
            | none =>
                rw [found] at result
                rw [forM_of_ok (lead_of_new regular alphabet here split leads sane untouched found)]
                have still : ∀ name, (∀ known ∈ target :: met, known.name ≠ name) → base name = .empty :=
                  fun name absent => untouched name fun known present =>
                    absent known (List.mem_cons_of_mem _ present)
                exact ih (target :: fresh) _ (List.mem_cons_of_mem _ here) still onward result
            | some known =>
                rw [found] at result agrees
                have same : known.members = target.members := by simpa using agrees
                rw [forM_of_ok (lead_of_known regular alphabet here split leads sane found same)]
                exact ih fresh _ here untouched onward result
          · rw [if_neg admitted] at result
            obtain ⟨exploration, rfl⟩ := Prod.mk.inj result
            obtain ⟨rfl, rfl⟩ := Exploration.mk.inj exploration
            have step : nfa.lead naming current symbol (nfa.amid naming start current base met (fresh ++ rest) read) =
                .error _ _ := lead_of_refused leads (Bool.eq_false_iff.mpr admitted)
            rw [forM_of_error step]
            exact .stopped rfl

theorem ends_expandAll {limit fuel : Nat} {seeds pending : List Composite}
    (bounded : (nfa.compositeSearch naming).Bounded seeds limit)
    (progress : (nfa.compositeSearch naming).Progress seeds met pending) (made : nfa.Made naming met pending base)
    (enough : limit + pending.length ≤ fuel + met.length) :
    Ends (nfa.finished naming start ((nfa.compositeSearch naming).expand fuel met pending).met)
      ((nfa.compositeSearch naming).expand fuel met pending).refused
      (nfa.expandAll naming fuel (nfa.underway naming start met pending base)) := by
  -- both loops expand the same set each time, and neither is cut short, since there are no more sets than fuel
  induction fuel generalizing met pending base with
  | zero =>
      obtain rfl := progress.eq_nil bounded (by omega)
      rw [made.underway_eq]
      exact .through
  | succ fuel ih =>
      cases pending with
      | nil =>
          rw [made.underway_eq]
          exact .through
      | cons current rest =>
          obtain ⟨new, refused, result, meeting⟩ :=
            (nfa.compositeSearch naming).meet_eq met [] ((nfa.compositeSearch naming).successors current)
          have here := progress.waiting current (List.mem_cons_self ..)
          have inner : Ends (nfa.amid naming start current base (new ++ met) (new ++ rest) nfa.alphabet) refused
              (nfa.alphabet.forM (nfa.lead naming current) (nfa.underway naming start met rest base)) := by
            rw [← made.amid_eq]
            rw [List.append_nil] at result
            exact ends_forM_lead regular alphabet rest [] [] here made.unknown rfl result
          have opened : nfa.expandAll naming (fuel + 1) (nfa.underway naming start met (current :: rest) base) =
              (nfa.alphabet.forM (nfa.lead naming current) >>= fun _ => nfa.expandAll naming fuel)
                (nfa.underway naming start met rest base) := rfl
          have passes : (nfa.compositeSearch naming).halts current = false := rfl
          rw [opened]
          simp only [Search.expand, passes, Bool.false_eq_true, if_false, result, List.append_nil]
          cases refused with
          | none =>
              rw [bind_of_ok _ inner.eq_ok]
              refine ih (progress.step meeting) (made.step progress meeting) ?_
              simp only [Discipline.length_join, List.length_append, List.length_cons] at enough ⊢
              omega
          | some candidate =>
              obtain ⟨building, log, stop⟩ := inner.exists_error
              rw [bind_of_error _ stop]
              exact .stopped log

end Loops

section Whole

variable {nfa : NFA} (regular : nfa.Regular) (alphabet : Apart nfa.alphabet) (naming : Naming)
include regular alphabet

theorem begin_eq (start : List State) :
    nfa.begin (.ofStates naming start)
        ⟨.empty (.text (Composite.ofStates naming start).name) nfa.epsilon, [], [], []⟩ =
      .ok () (nfa.underway naming start [.ofStates naming start] [.ofStates naming start] fun _ => .empty) := by
  have declared : (DFA.empty (.text (Composite.ofStates naming start).name) nfa.epsilon).performAll
      (nfa.alphabet.map .addSymbol) = .ok (nfa.midway naming start [] fun _ => .empty) :=
    DFA.performAll_symbols alphabet regular.real
  have taken : nfa.takeUp (.ofStates naming start) ⟨nfa.midway naming start [] fun _ => .empty, [], [], []⟩ = _ :=
    takeUp_eq (nodup_canonical _) (by simp) rfl
  rw [begin, bind_of_ok _ (forM_change declared), bind_of_ok _ taken]
  rfl

theorem ends_search {start : List State} (filled : start ≠ []) :
    Ends (nfa.finished naming start (nfa.composites naming start).met) (nfa.composites naming start).refused
      (nfa.expandAll naming (Nat.pow 2 (nfa.graph.edges.length + 1))
        (nfa.underway naming start [.ofStates naming start] [.ofStates naming start] fun _ => .empty)) := by
  obtain ⟨new, refused, result, meeting⟩ :=
    (nfa.compositeSearch naming).meet_eq [] [] [.ofStates naming start]
  obtain ⟨exploration, -⟩ := Prod.mk.inj result
  obtain ⟨same, rfl⟩ := Exploration.mk.inj exploration
  obtain rfl : [Composite.ofStates naming start] = new := by simpa using same
  have made : nfa.Made naming [.ofStates naming start] [.ofStates naming start] fun _ => .empty :=
    ⟨fun _ _ => rfl, fun _ _ => rfl, List.pairwise_singleton .., fun _ here => .inl here⟩
  exact ends_expandAll regular alphabet (bounded_composites regular.sound naming filled) meeting.progress made
    (by simp [Discipline.length_join])

/-- Carried out step by step, the construction makes what is made from all the sets at once, and sends the messages
that tell of them. -/
theorem constructed_eq (elapsed : String) :
    nfa.constructed naming elapsed = (nfa.toDfa naming, nfa.toDfaEvents naming elapsed) := by
  cases initial : nfa.initial with
  | none => simp [constructed, toDfa, toDfaEvents, NFA.start, initial, bind, Except.bind]
  | some origin =>
      have started := start_of_sound regular.sound initial
      have filled : nfa.close [origin] ≠ [] := by simp
      have ends := ends_search regular alphabet naming filled
      simp only [constructed, toDfa, toDfaEvents, started, bind, Except.bind, conclude]
      rw [construct, bind_of_ok _ (begin_eq regular alphabet naming _)]
      cases stop : (nfa.composites naming (nfa.close [origin])).refused with
      | none =>
          rw [stop] at ends
          rw [bind_of_ok _ ends.eq_ok]
          rfl
      | some refused =>
          rw [stop] at ends
          obtain ⟨building, log, failed⟩ := ends.exists_error
          rw [bind_of_error _ failed]
          simp [log, finished, narration, startedEvent, Exploration.found]

end Whole

end NFA

end FiniteAutomata
