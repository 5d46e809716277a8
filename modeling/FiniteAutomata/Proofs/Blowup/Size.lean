import FiniteAutomata.Proofs.Blowup.Language
import Mathlib.Data.Finset.Powerset

set_option autoImplicit false

/-!
How large the deterministic automaton of the worst case is. Each set that the construction finds holds the start and
any selection of the other states, since there is a word for each selection.
-/

namespace FiniteAutomata

namespace Blowup

variable {n : Nat}

/-- As many items as selections from the numbers below a bound, if each selection belongs to one of the items. -/
theorem length_eq_two_pow {α : Type} {items : List α} (distinct : items.Nodup) (selection : α → Finset Nat)
    (apart : ∀ left ∈ items, ∀ right ∈ items, selection left = selection right → left = right) {bound : Nat}
    (all : ∀ places, places ⊆ Finset.range bound ↔ ∃ item ∈ items, selection item = places) :
    items.length = 2 ^ bound := by
  have image : (items.map selection).toFinset = (Finset.range bound).powerset := by
    ext places
    rw [List.mem_toFinset, List.mem_map, Finset.mem_powerset, all]
  have single : (items.map selection).Nodup := distinct.map_on apart
  calc items.length = (items.map selection).length := (List.length_map ..).symm
    _ = (items.map selection).toFinset.card := (List.toFinset_card_of_nodup single).symm
    _ = 2 ^ bound := by rw [image, Finset.card_powerset, Finset.card_range]

/-- A word whose places with an `a` are the given ones, as counted from its end. -/
def wordOf (n : Nat) (places : Finset Nat) : List Label :=
  ((List.range n).map fun place => .text (if place ∈ places then "a" else "b")).reverse

theorem letters_wordOf (n : Nat) (places : Finset Nat) : Letters (wordOf n places) := by
  intro symbol present
  obtain ⟨place, -, rfl⟩ := List.mem_map.mp (List.mem_reverse.mp present)
  by_cases chosen : place ∈ places
  · exact .inl (by rw [if_pos chosen])
  · exact .inr (by rw [if_neg chosen])

theorem marks_wordOf (n : Nat) (places : Finset Nat) (place : Nat) :
    Marks n (wordOf n places) (place + 1) ↔ place < n ∧ place ∈ places := by
  simp only [Marks, wordOf, List.reverse_reverse, List.getElem?_map]
  refine and_congr_right fun below => ?_
  rw [List.getElem?_range below]
  by_cases chosen : place ∈ places <;> simp [chosen]

/-- The names are those of the places where the automaton can be after the word. -/
def NamesAfter (n : Nat) (word : List Label) (members : List String) : Prop :=
  ∀ name, name ∈ members ↔ ∃ place : Nat, .text name = number place ∧ Marks n word place

/-- The places before the bound that some of the names stand for, the start left out. -/
def selected (bound : Nat) (members : List String) : Finset Nat :=
  (Finset.range bound).filter fun place => toString ((place + 1 : Nat) : Int) ∈ members

theorem NamesAfter.mem_selected {word : List Label} {members : List String} (after : NamesAfter n word members)
    (bound place : Nat) : place ∈ selected bound members ↔ place < bound ∧ Marks n word (place + 1) := by
  rw [selected, Finset.mem_filter, Finset.mem_range, after]
  refine and_congr_right fun _ => ⟨?_, fun marks => ⟨place + 1, rfl, marks⟩⟩
  rintro ⟨other, same, marks⟩
  obtain rfl := number_inj.mp (show number (place + 1 : Nat) = number other from same)
  exact marks

theorem NamesAfter.mem_members_congr {left right : List Label} {lefts rights : List String}
    (leftAfter : NamesAfter n left lefts) (rightAfter : NamesAfter n right rights)
    (same : selected n lefts = selected n rights) (name : String) : name ∈ lefts ↔ name ∈ rights := by
  have marks (place : Nat) : Marks n left place ↔ Marks n right place := by
    cases place with
    | zero => exact Iff.rfl
    | succ place =>
        have both := Finset.ext_iff.mp same place
        rw [leftAfter.mem_selected, rightAfter.mem_selected] at both
        exact ⟨fun here => (both.mp ⟨here.1, here⟩).2, fun here => (both.mpr ⟨here.1, here⟩).2⟩
  rw [leftAfter, rightAfter]
  simp only [marks]

theorem selected_eq_insert (positive : 1 ≤ n) {members : List String} (last : n - 1 ∈ selected n members) :
    selected n members = insert (n - 1) (selected (n - 1) members) := by
  have bound : Finset.range n = insert (n - 1) (Finset.range (n - 1)) := by
    rw [← Finset.range_add_one, Nat.sub_add_cancel positive]
  have named := (Finset.mem_filter.mp last).2
  rw [selected, selected, bound, Finset.filter_insert, if_pos named]

section Found

variable (positive : 1 ≤ n) {nfa : NFA} {start : State} (built : Built n nfa start) {namer : Namer}
  {found : List Composite} (covers : nfa.Covers namer.name (nfa.close [start]) found)
include positive built covers

theorem exists_word {composite : Composite} (present : composite ∈ found) :
    ∃ word, Letters word ∧ nfa.follow (nfa.close [start]) word = composite.states ∧
      NamesAfter n word composite.members := by
  obtain ⟨word, -, leads, names⟩ := built.recorded.exists_word_of_found built.started covers present
  simp only [built.path_iff positive] at names
  obtain ⟨name, some⟩ := List.exists_mem_of_ne_nil _ (covers.formed composite present).members_ne_nil
  have letters : Letters word := ((names name).mp some).1
  exact ⟨word, letters, leads, fun name => by simp [names, letters]⟩

theorem exists_composite {word : List Label} (letters : Letters word) :
    ∃ composite ∈ found, NamesAfter n word composite.members := by
  have path := (built.path_iff positive word (number 0)).mpr ⟨letters, 0, rfl, trivial⟩
  obtain ⟨composite, present, names⟩ :=
    built.recorded.exists_found_of_path built.started covers (built.unmarked letters) path
  simp only [built.path_iff positive] at names
  exact ⟨composite, present, fun name => by simp [names, letters]⟩

theorem eq_of_selected {left right : Composite} (leftFound : left ∈ found) (rightFound : right ∈ found)
    (same : selected n left.members = selected n right.members) : left = right := by
  obtain ⟨leftWord, -, -, leftAfter⟩ := exists_word positive built covers leftFound
  obtain ⟨rightWord, -, -, rightAfter⟩ := exists_word positive built covers rightFound
  have leftFormed := covers.formed left leftFound
  have rightFormed := covers.formed right rightFound
  have members : left.members = right.members := by
    rw [leftFormed.members_eq_iff rightFormed]
    ext name
    simpa using leftAfter.mem_members_congr rightAfter same name
  refine covers.distinct left leftFound right rightFound ?_
  rw [leftFormed.name, rightFormed.name, members]

theorem exists_selected {places : Finset Nat} (within : places ⊆ Finset.range n) :
    ∃ composite ∈ found, ∀ bound, selected bound composite.members = places.filter (· < bound) := by
  obtain ⟨composite, present, after⟩ := exists_composite positive built covers (letters_wordOf n places)
  refine ⟨composite, present, fun bound => ?_⟩
  ext place
  have below : place ∈ places → place < n := fun chosen => Finset.mem_range.mp (within chosen)
  rw [after.mem_selected, marks_wordOf, Finset.mem_filter]
  tauto

theorem length_found (distinct : found.Nodup) : found.length = 2 ^ n := by
  refine length_eq_two_pow distinct (fun composite => selected n composite.members)
    (fun left leftFound right rightFound => eq_of_selected positive built covers leftFound rightFound)
    fun places => ⟨fun within => ?_, ?_⟩
  · obtain ⟨composite, present, holds⟩ := exists_selected positive built covers within
    refine ⟨composite, present, (holds n).trans (Finset.filter_true_of_mem fun place chosen => ?_)⟩
    exact Finset.mem_range.mp (within chosen)
  · rintro ⟨composite, -, rfl⟩
    exact Finset.filter_subset ..

theorem isFinal_found_iff {composite : Composite} (present : composite ∈ found) :
    nfa.isFinal composite.states = true ↔ n - 1 ∈ selected n composite.members := by
  obtain ⟨word, letters, leads, after⟩ := exists_word positive built covers present
  have last : n - 1 + 1 = n := Nat.sub_add_cancel positive
  rw [← leads, built.isFinal_follow_iff positive (built.unmarked letters), after.mem_selected, last]
  simp only [letters, true_and, iff_and_self]
  omega

theorem length_finals (distinct : found.Nodup) :
    (found.filter fun composite => nfa.isFinal composite.states).length = 2 ^ (n - 1) := by
  refine length_eq_two_pow (distinct.filter _) (fun composite => selected (n - 1) composite.members) ?_
    fun places => ⟨fun within => ?_, ?_⟩
  · intro left leftFinal right rightFinal same
    obtain ⟨leftFound, leftLast⟩ := List.mem_filter.mp leftFinal
    obtain ⟨rightFound, rightLast⟩ := List.mem_filter.mp rightFinal
    rw [isFinal_found_iff positive built covers leftFound] at leftLast
    rw [isFinal_found_iff positive built covers rightFound] at rightLast
    refine eq_of_selected positive built covers leftFound rightFound ?_
    rw [selected_eq_insert positive leftLast, selected_eq_insert positive rightLast]
    exact congrArg (insert (n - 1)) same
  · -- the selections without the last place, each with the last place added
    have whole : insert (n - 1) places ⊆ Finset.range n := by
      refine Finset.insert_subset (Finset.mem_range.mpr (by omega)) (within.trans ?_)
      exact Finset.range_subset_range.mpr (Nat.sub_le n 1)
    obtain ⟨composite, present, holds⟩ := exists_selected positive built covers whole
    refine ⟨composite, List.mem_filter.mpr ⟨present, ?_⟩, ?_⟩
    · rw [isFinal_found_iff positive built covers present, holds]
      exact Finset.mem_filter.mpr ⟨Finset.mem_insert_self .., by omega⟩
    · rw [holds, Finset.filter_insert, if_neg (lt_irrefl _)]
      exact Finset.filter_true_of_mem fun place chosen => Finset.mem_range.mp (within chosen)
  · rintro ⟨composite, -, rfl⟩
    exact Finset.filter_subset ..

theorem isSome_target {composite : Composite} (present : composite ∈ found) {symbol : Label}
    (letter : IsLetter symbol) :
    ((nfa.assemble namer.name (nfa.close [start]) found).target? (.text composite.name) symbol).isSome = true := by
  have real : (symbol == nfa.epsilon) = false := by
    rw [built.epsilon]
    exact letter.real
  obtain ⟨word, letters, leads, -⟩ := exists_word positive built covers present
  have onward : Letters (word ++ [symbol]) :=
    List.forall_mem_append.mpr ⟨letters, List.forall_mem_singleton.mpr letter⟩
  have path := (built.path_iff positive _ (number 0)).mpr ⟨onward, 0, rfl, trivial⟩
  obtain ⟨state, reached, -⟩ :=
    (built.recorded.exists_name_follow_iff built.started (built.unmarked onward) _).mpr path
  rw [NFA.follow_append, leads] at reached
  rw [Option.isSome_iff_ne_none, Ne, NFA.target?_eq_none_iff built.recorded.regular covers present real]
  exact List.ne_nil_of_mem reached

end Found

/-- The deterministic automaton has all selections of the places for its states, and a move on each letter. -/
structure Full (n : Nat) (dfa : DFA) : Prop where
  size : dfa.size = 2 ^ n
  finals : (dfa.states.keys.filter dfa.isFinal).length = 2 ^ (n - 1)
  moves : ∀ state ∈ dfa.states.keys, ∀ symbol, IsLetter symbol → (dfa.target? state symbol).isSome = true

theorem exists_toDfa (positive : 1 ≤ n) {nfa : NFA} {start : State} (built : Built n nfa start) :
    ∃ dfa, nfa.toDfa Namer.standard.name = .ok dfa ∧ Full n dfa := by
  have regular := built.recorded.regular
  obtain ⟨success, covers⟩ := NFA.toDfa_namer regular.sound built.started Namer.standard
  have names : ((nfa.foundFrom Namer.standard.name start).map Composite.name).Nodup :=
    NFA.nodup_names_found regular.sound _ (by simp)
  have distinct := List.Nodup.of_map _ names
  refine ⟨_, success, ?_, ?_, ?_⟩
  · rw [← length_found positive built covers distinct]
    simp [DFA.size, Table.size, NFA.assemble]
  · rw [← NFA.finals_assemble covers, ← length_finals positive built covers distinct]
    simp [NFA.assemble]
  · intro state present symbol letter
    rw [NFA.keys_assemble, List.map_map] at present
    obtain ⟨composite, found, rfl⟩ := List.mem_map.mp present
    exact isSome_target positive built covers found letter

theorem countStates_eq (positive : 1 ≤ n) : countStates n = .ok (2 ^ n) := by
  obtain ⟨nfa, start, success, built⟩ := exists_nthFromEnd positive
  obtain ⟨dfa, converted, full⟩ := exists_toDfa positive built
  simp [countStates, success, converted, full.size, bind, Except.bind, pure, Except.pure]

theorem mem_sizes_iff (limit value : Int) : value ∈ sizes limit ↔ 2 ≤ value ∧ value ≤ limit := by
  simp only [sizes, List.mem_map, List.mem_range, Int.ofNat_eq_natCast]
  constructor
  · rintro ⟨index, below, rfl⟩
    omega
  · rintro ⟨least, most⟩
    exact ⟨(value - 2).toNat, by omega, by omega⟩

theorem pairwise_sizes (limit : Int) : (sizes limit).Pairwise (· < ·) := by
  refine List.pairwise_map.mpr (List.pairwise_lt_range.imp fun {first second} less => ?_)
  simp only [Int.ofNat_eq_natCast]
  omega

theorem mapM_of_ok {α β : Type} {items : List α} {action : α → Except Error β} {result : α → β}
    (success : ∀ item ∈ items, action item = .ok (result item)) : items.mapM action = .ok (items.map result) := by
  induction items with
  | nil => rfl
  | cons item rest ih =>
      obtain ⟨here, later⟩ := List.forall_mem_cons.mp success
      simp [List.mapM_cons, here, ih later, bind, Except.bind, pure, Except.pure]

theorem report_eq (limit : Int) (elapsed : String) : report limit elapsed =
    .ok ("".intercalate ((sizes limit).map fun value => line value (2 ^ value.toNat) elapsed)) := by
  have lines : ∀ value ∈ sizes limit, (do pure (line value (← countStates value) elapsed)) =
      (.ok (line value (2 ^ value.toNat) elapsed) : Except Error String) := by
    intro value present
    obtain ⟨least, -⟩ := (mem_sizes_iff limit value).mp present
    obtain ⟨size, rfl⟩ := Int.eq_ofNat_of_zero_le (show 0 ≤ value by omega)
    simp [countStates_eq (show 1 ≤ size by omega), bind, Except.bind, pure, Except.pure]
  rw [report, mapM_of_ok lines]
  rfl

/-- The automaton for a positive number accepts the words over the letters with an `a` so far from their end. Its
deterministic automaton is as large as can be, and so it is reported. For other numbers there is no automaton. -/
theorem nthFromEnd_blowup :
    (∀ n : Int, 1 ≤ n → ∃ nfa dfa, nthFromEnd n .empty = .ok nfa ∧
      nfa.toDfa Namer.standard.name = .ok dfa ∧
      (∀ word, Unmarked standardEpsilon word → ∃ accepted, nfa.accept word = .ok accepted ∧
        (accepted = true ↔ (∀ symbol ∈ word, symbol = .text "a" ∨ symbol = .text "b") ∧ n ≤ word.length ∧
          word[word.length - n.toNat]? = some (.text "a"))) ∧
      dfa.size = 2 ^ n.toNat ∧ (dfa.states.keys.filter dfa.isFinal).length = 2 ^ (n.toNat - 1) ∧
      ∀ state ∈ dfa.states.keys, (dfa.target? state (.text "a")).isSome = true ∧
        (dfa.target? state (.text "b")).isSome = true) ∧
    (∀ limit elapsed, report limit elapsed =
        .ok ("".intercalate ((sizes limit).map fun n => line n (2 ^ n.toNat) elapsed)) ∧
      (∀ n, n ∈ sizes limit ↔ 2 ≤ n ∧ n ≤ limit) ∧ (sizes limit).Pairwise (· < ·)) ∧
    ∀ n graph, n ≤ 0 → nthFromEnd n graph = .error (.unknownState (.text "1")) := by
  refine ⟨fun value positive => ?_, fun limit elapsed =>
    ⟨report_eq limit elapsed, mem_sizes_iff limit, pairwise_sizes limit⟩,
    fun value graph few => nthFromEnd_eq_error few graph⟩
  obtain ⟨n, rfl⟩ := Int.eq_ofNat_of_zero_le (show 0 ≤ value by omega)
  have some : 1 ≤ n := by omega
  obtain ⟨nfa, start, success, built⟩ := exists_nthFromEnd some
  obtain ⟨dfa, converted, full⟩ := exists_toDfa some built
  refine ⟨nfa, dfa, success, converted, fun word unmarked => ?_, full.size, full.finals, fun state present =>
    ⟨full.moves state present _ (.inl rfl), full.moves state present _ (.inr rfl)⟩⟩
  obtain ⟨accepted, answer, told⟩ := built.accept_iff some unmarked
  refine ⟨accepted, answer, ?_⟩
  rw [told, marks_last_iff some, Int.toNat_natCast, Int.ofNat_le]
  exact Iff.rfl

theorem nthFromEnd_blowup_three :
    (1 : Int) ≤ 3 ∧ (0 : Int) ≤ 0 ∧ Unmarked standardEpsilon [.text "a", .text "b", .text "b"] ∧
      (∃ nfa dfa, nthFromEnd 3 .empty = .ok nfa ∧ nfa.toDfa Namer.standard.name = .ok dfa ∧
        nfa.accept [.text "a", .text "b", .text "b"] = .ok true ∧ dfa.size = 8 ∧
        (dfa.states.keys.filter dfa.isFinal).length = 4) ∧
      nthFromEnd 0 .empty = .error (.unknownState (.text "1")) := by
  have unmarked : Unmarked standardEpsilon [.text "a", .text "b", .text "b"] := by
    unfold Unmarked
    decide
  obtain ⟨nfa, dfa, built, converted, language, size, finals, -⟩ := nthFromEnd_blowup.1 3 (by decide)
  obtain ⟨accepted, answer, told⟩ := language _ unmarked
  have accepts : accepted = true := told.mpr ⟨by simp, by decide, rfl⟩
  subst accepts
  exact ⟨by decide, by decide, unmarked, ⟨nfa, dfa, built, converted, answer, size, finals⟩,
    nthFromEnd_blowup.2.2 0 .empty (by decide)⟩

end Blowup

end FiniteAutomata
