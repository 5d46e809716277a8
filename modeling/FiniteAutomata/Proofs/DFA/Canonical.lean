import FiniteAutomata.Proofs.DFA.Numbering
import FiniteAutomata.Proofs.Exploration.Lockstep
import FiniteAutomata.Proofs.NFA.Assembled
import FiniteAutomata.Proofs.NFA.Language

set_option autoImplicit false

/-!
The numbered copy as a canonical form. If all states can be reached and all symbols on moves are texts, the
copies of two deterministic automata are equal exactly when there is an isomorphism between the automata.
-/

namespace FiniteAutomata

theorem forall₂_of_map_eq {α β γ : Type} {R : α → β → Prop} {key : α → γ} {twinKey : β → γ} :
    ∀ {items : List α} {twins : List β}, items.map key = twins.map twinKey →
      (∀ item ∈ items, ∀ twin ∈ twins, key item = twinKey twin → R item twin) → List.Forall₂ R items twins
  | [], [], _, _ => .nil
  | item :: items, twin :: twins, same, related => by
      obtain ⟨first, later⟩ := List.cons.inj same
      exact .cons (related item (List.mem_cons_self ..) twin (List.mem_cons_self ..) first)
        (forall₂_of_map_eq later fun other here goal there =>
          related other (List.mem_cons_of_mem _ here) goal (List.mem_cons_of_mem _ there))

theorem findIdx_eq_of_forall₂ {α β : Type} {R : α → β → Prop} {items : List α} {twins : List β}
    (matched : List.Forall₂ R items twins) {first : α → Bool} {second : β → Bool}
    (agree : ∀ item twin, R item twin → first item = second twin) :
    items.findIdx first = twins.findIdx second := by
  induction matched with
  | nil => rfl
  | cons same _ ih => simp only [List.findIdx_cons, agree _ _ same, ih]

namespace DFA

/-- What calls make, from an automaton without states or from one that the subset construction made. -/
inductive Made : DFA → Prop where
  | empty (initial epsilon : Label) : Made (empty initial epsilon)
  | subsets {epsilon : Label} {symbols : List Label} {fresh : NFA}
      (created : NFA.create epsilon symbols .empty = .ok fresh) (commands : List NFA.Command) (naming : Naming)
      {dfa : DFA} (built : (fresh.replay commands).toDfa naming = .ok dfa) : Made dfa
  | call {dfa changed : DFA} {command : Command} (made : Made dfa)
      (success : dfa.perform command = .ok changed) : Made changed

/-- The start is a state, and all states can be reached from it. -/
structure Accessible (dfa : DFA) : Prop where
  started : dfa.hasState dfa.initial = true
  reachable : ∀ state, dfa.hasState state = true → dfa.Reachable state

/-- All symbols on moves are texts. -/
def Lettered (dfa : DFA) : Prop :=
  ∀ source symbol target, dfa.Moves source symbol target → ∃ letter, symbol = .text letter

theorem Made.replay {dfa : DFA} (made : Made dfa) (commands : List Command) : Made (dfa.replay commands) :=
  replay_keeps (fun _ _ _ before success => .call before success) made commands

theorem accessible_of_keys {dfa : DFA} (started : dfa.hasState dfa.initial = true)
    (keys : ∀ key ∈ dfa.states.keys, dfa.Reachable key) : dfa.Accessible := by
  refine ⟨started, fun state known => ?_⟩
  obtain ⟨key, present, same⟩ := (hasState_iff ..).mp known
  obtain ⟨word, leads⟩ := keys key present
  exact ⟨word, leads.congr same⟩

theorem Made.regular {dfa : DFA} (made : Made dfa) : dfa.Regular := by
  induction made with
  | empty initial epsilon => exact regular_empty initial epsilon
  | call _ success before => exact before.perform success
  | @subsets epsilon symbols fresh created commands naming dfa built =>
      have regular := (NFA.regular_of_create created).replay commands
      have alphabet := NFA.apart_alphabet_replay created commands
      exact NFA.regular_of_toDfa regular alphabet built

theorem lettered_of_alphabet {dfa : DFA} (regular : dfa.Regular)
    (texts : ∀ symbol ∈ dfa.alphabet, ∃ letter, symbol = .text letter) : dfa.Lettered := by
  rintro source symbol target ⟨found, leads, -⟩
  obtain ⟨known, present, same⟩ := List.contains_iff_exists_mem_beq.mp (regular.target leads).2.2.1
  obtain ⟨letter, rfl⟩ := texts known present
  exact ⟨letter, (Label.text_beq_iff letter symbol).mp (BEq.symm same)⟩

variable {left right : DFA} {change : Label → Label}

theorem Lettered.target? {dfa : DFA} (lettered : dfa.Lettered) (regular : dfa.Regular) {state : Label}
    {move : Label × Label} (present : move ∈ (dfa.moves state).entries) :
    move.1 = .text move.1.plain ∧ dfa.target? state (.text move.1.plain) = some move.2 := by
  have leads : dfa.target? state move.1 = some move.2 :=
    Table.get?_of_mem (regular.apart_moves state) present BEq.rfl
  obtain ⟨letter, spelled⟩ := lettered state move.1 move.2 ⟨move.2, leads, BEq.rfl⟩
  have plain : move.1 = .text move.1.plain := by rw [spelled, Label.plain_text]
  exact ⟨plain, plain ▸ leads⟩

theorem Lettered.mem_letters {dfa : DFA} (lettered : dfa.Lettered) (regular : dfa.Regular) (state : Label)
    (letter : String) : letter ∈ (dfa.moves state).entries.map (fun move => move.1.plain) ↔
      (dfa.target? state (.text letter)).isSome = true := by
  rw [List.mem_map, Option.isSome_iff_exists]
  constructor
  · rintro ⟨move, present, rfl⟩
    exact ⟨move.2, (lettered.target? regular present).2⟩
  · rintro ⟨target, leads⟩
    obtain ⟨known, present, same⟩ := (Table.exists_entry_iff (regular.apart_moves state) _ target).mp leads
    refine ⟨(known, target), present, ?_⟩
    rw [(Label.text_beq_iff letter known).mp (BEq.symm same), Label.plain_text]

theorem Lettered.nodup_letters {dfa : DFA} (lettered : dfa.Lettered) (regular : dfa.Regular) (state : Label) :
    ((dfa.moves state).entries.map fun move => move.1.plain).Nodup := by
  refine List.pairwise_map.mpr ((List.pairwise_map.mp (regular.apart_moves state)).imp_of_mem ?_)
  intro move other here there different same
  rw [(lettered.target? regular here).1, (lettered.target? regular there).1, same] at different
  simp at different

/-- The twin is where an isomorphism takes the state. -/
def Twins (left : DFA) (change : Label → Label) (state twin : Label) : Prop :=
  left.hasState state = true ∧ (change state == twin) = true

namespace IsomorphicBy

variable (iso : left.IsomorphicBy right change) (leftRegular : left.Regular) (rightRegular : right.Regular)
  (leftLettered : left.Lettered) (rightLettered : right.Lettered)
include iso leftRegular rightRegular leftLettered rightLettered

theorem perm_letters {state twin : Label} (twins : Twins left change state twin) :
    ((left.moves state).entries.map fun move => move.1.plain).Perm
      ((right.moves twin).entries.map fun move => move.1.plain) := by
  refine (List.perm_ext_iff_of_nodup (leftLettered.nodup_letters leftRegular state)
    (rightLettered.nodup_letters rightRegular twin)).mpr fun letter => ?_
  rw [leftLettered.mem_letters leftRegular, rightLettered.mem_letters rightRegular]
  rcases iso.target? leftRegular rightRegular twins.1 twins.2 (.text letter) with
    ⟨missing, absent⟩ | ⟨target, reached, leads, arrives, -⟩
  · rw [missing, absent]
  · simp [leads, arrives]

theorem sortedTargets {state twin : Label} (twins : Twins left change state twin) :
    List.Forall₂ (Twins left change) (left.sortedTargets state) (right.sortedTargets twin) := by
  have sorted (moves : List (Label × Label)) : (sortOn (fun move => move.1.plain) moves).map
      (fun move => move.1.plain) = sortOn id (moves.map fun move => move.1.plain) :=
    (sortOn_map id (fun move : Label × Label => move.1.plain) moves).symm
  have letters := sortOn_id_congr
    (iso.perm_letters leftRegular rightRegular leftLettered rightLettered twins)
  rw [← sorted, ← sorted] at letters
  refine List.forall₂_map_left_iff.mpr (List.forall₂_map_right_iff.mpr (forall₂_of_map_eq letters ?_))
  intro move here other there same
  -- moves on the same letter lead to states that correspond
  have leads := (leftLettered.target? leftRegular ((mem_sortOn ..).mp here)).2
  have arrives := (rightLettered.target? rightRegular ((mem_sortOn ..).mp there)).2
  rw [← same] at arrives
  rcases iso.target? leftRegular rightRegular twins.1 twins.2 (.text move.1.plain) with
    ⟨missing, -⟩ | ⟨target, reached, found, onward, known, equal⟩
  · simp [leads] at missing
  · obtain rfl := Option.some.inj (leads.symm.trans found)
    obtain rfl := Option.some.inj (arrives.symm.trans onward)
    exact ⟨known, equal⟩

theorem lockstep : left.breadthSearch.Lockstep right.breadthSearch (Twins left change) where
  discipline := rfl
  leftAdmits _ _ := rfl
  rightAdmits _ _ := rfl
  leftPasses _ := rfl
  rightPasses _ := rfl
  faithful twins others := by
    rw [← iso.faithful _ _ twins.1 others.1, BEq.congr_left twins.2, BEq.congr_right others.2]
  successors := iso.sortedTargets leftRegular rightRegular leftLettered rightLettered

theorem reached (started : left.hasState left.initial = true) :
    List.Forall₂ (Twins left change) left.reached right.reached :=
  (iso.lockstep leftRegular rightRegular leftLettered rightLettered).found
    (Search.ends_run left.bounded_breadthSearch) (Search.ends_run right.bounded_breadthSearch)
    (.cons ⟨started, iso.initial⟩ .nil)

end IsomorphicBy

theorem Accessible.numbered {dfa : DFA} (accessible : dfa.Accessible) (regular : dfa.Regular) :
    dfa.numbered = dfa.reached := by
  have none : dfa.states.keys.filter (fun state => !dfa.reached.contains state) = [] := by
    rw [List.filter_eq_nil_iff]
    intro state present
    have known := (hasState_iff ..).mpr ⟨state, present, BEq.rfl⟩
    simpa using (regular.contains_reached state).mpr (accessible.reachable state known)
  simp [DFA.numbered, none, sortOn]

theorem IsomorphicBy.number (iso : left.IsomorphicBy right change) (leftRegular : left.Regular)
    (rightRegular : right.Regular) (leftAccessible : left.Accessible) (rightAccessible : right.Accessible)
    (leftLettered : left.Lettered) (rightLettered : right.Lettered) (base : Int) {state : Label}
    (known : left.hasState state = true) : right.number base (change state) = left.number base state := by
  have matched := iso.reached leftRegular rightRegular leftLettered rightLettered leftAccessible.started
  have places := findIdx_eq_of_forall₂ matched fun item twin (twins : Twins left change item twin) =>
    (iso.lockstep leftRegular rightRegular leftLettered rightLettered).faithful twins
      (⟨known, BEq.rfl⟩ : Twins left change state (change state))
  rw [DFA.number, DFA.number, leftAccessible.numbered leftRegular, rightAccessible.numbered rightRegular,
    places]

theorem renumber_beq_iff {left right : DFA} (leftMade : Made left) (rightMade : Made right)
    (leftAccessible : left.Accessible) (rightAccessible : right.Accessible) (leftLettered : left.Lettered)
    (rightLettered : right.Lettered) (base : Int) :
    ∃ leftCopy rightCopy, left.renumber base = .ok leftCopy ∧ right.renumber base = .ok rightCopy ∧
      ((leftCopy == rightCopy) = true ↔ ∃ change, left.IsomorphicBy right change) := by
  have leftRegular := leftMade.regular
  have rightRegular := rightMade.regular
  have leftNumbers := leftRegular.relabels_numbered leftAccessible.started base
  have rightNumbers := rightRegular.relabels_numbered rightAccessible.started base
  refine ⟨_, _, renumber_of_known leftAccessible.started base,
    renumber_of_known rightAccessible.started base, ?_⟩
  rw [beq_iff_isomorphicBy_id leftNumbers.regular_copy rightNumbers.regular_copy]
  constructor
  · intro same
    obtain ⟨back, returns, -⟩ := rightNumbers.isomorphicBy.symm rightAccessible.started
    exact ⟨_, (leftNumbers.isomorphicBy.trans same leftAccessible.started).trans returns leftAccessible.started⟩
  · rintro ⟨change, iso⟩
    -- from a copy back to its automaton, across, and on to the other copy no number changes
    obtain ⟨back, returns, same⟩ := leftNumbers.isomorphicBy.symm leftAccessible.started
    have begun := leftNumbers.isomorphicBy.initial_known leftAccessible.started
    refine ((returns.trans iso begun).trans rightNumbers.isomorphicBy begun).congr begun fun goal known => ?_
    have number := iso.number leftRegular rightRegular leftAccessible rightAccessible leftLettered rightLettered
      base (returns.state goal known)
    refine BEq.trans ?_ (same goal known)
    show (Label.int (right.number base (change (back goal))) == .int (left.number base (back goal))) = true
    rw [number]
    exact BEq.rfl

/-- What the subset construction makes of a run with a cycle of silent steps. -/
def determined : DFA where
  initial := .text "[q, s]"
  epsilon := standardEpsilon
  states := ⟨[(.text "[q, s]", ⟨[.text "q", .text "s"], ⟨[(.text "a", .text "[f]")]⟩⟩),
    (.text "[f]", ⟨[.text "f"], ⟨[]⟩⟩)]⟩
  finals := [.text "[q, s]", .text "[f]"]
  alphabet := [.text "a"]

/-- An automaton of the same form with other names, made in another order. -/
def renamed : DFA :=
  (empty (.int 3) .null).replay [.addFinal (.truth true) [], .addSymbol (.text "b"), .addFinal (.int 3) [.null],
    .addTransition (.int 3) (.text "a") (.int 1)]

theorem determined_eq_toDfa : ((NFA.empty standardEpsilon .empty).replay NFA.silentCycle).toDfa
    Namer.standard.name = .ok determined := by rfl

theorem renumber_beq_iff_renamed :
    (Made determined ∧ determined.Accessible ∧ determined.Lettered) ∧
      (Made renamed ∧ renamed.Accessible ∧ renamed.Lettered) ∧
      ∃ change, determined.IsomorphicBy renamed change := by
  have created : NFA.create standardEpsilon [] .empty = .ok (NFA.empty standardEpsilon .empty) := rfl
  have determinedMade : Made determined := .subsets created _ _ determined_eq_toDfa
  have renamedMade : Made renamed := (Made.empty (.int 3) .null).replay _
  have determinedReached : determined.Accessible := by
    refine accessible_of_keys (by rfl) fun state present => ?_
    have keys : determined.states.keys = [.text "[q, s]", .text "[f]"] := by rfl
    simp only [keys, List.mem_cons, List.not_mem_nil, or_false] at present
    rcases present with rfl | rfl
    · exact ⟨[], _, rfl, by rfl⟩
    · exact ⟨[.text "a"], _, rfl, by rfl⟩
  have renamedReached : renamed.Accessible := by
    refine accessible_of_keys (by rfl) fun state present => ?_
    have keys : renamed.states.keys = [.truth true, .int 3] := by rfl
    simp only [keys, List.mem_cons, List.not_mem_nil, or_false] at present
    rcases present with rfl | rfl
    · exact ⟨[.text "a"], _, rfl, by rfl⟩
    · exact ⟨[], _, rfl, by rfl⟩
  have determinedLetters : determined.Lettered := lettered_of_alphabet determinedMade.regular (by
    simp [determined])
  have renamedLetters : renamed.Lettered := lettered_of_alphabet renamedMade.regular (by
    have alphabet : renamed.alphabet = [.text "b", .text "a"] := by rfl
    simp [alphabet])
  obtain ⟨leftCopy, rightCopy, left, right, agree⟩ := renumber_beq_iff determinedMade renamedMade
    determinedReached renamedReached determinedLetters renamedLetters 5
  refine ⟨⟨determinedMade, determinedReached, determinedLetters⟩, ⟨renamedMade, renamedReached, renamedLetters⟩,
    agree.mp ?_⟩
  have same : (determined.renumber 5 >>= fun copy => (renamed.renumber 5).map (copy == ·)) = .ok true := by rfl
  rw [left, right] at same
  exact Except.ok.inj same

end DFA

end FiniteAutomata
