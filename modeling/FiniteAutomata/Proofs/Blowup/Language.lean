import FiniteAutomata.Blowup
import FiniteAutomata.Proofs.NFA.Requests

set_option autoImplicit false

/-!
What the worst case accepts. The state under a number, other than the start, is met after just those words whose
symbol at that number, counted from the end, is an `a`.
-/

namespace FiniteAutomata

namespace Blowup

variable {n : Nat}

theorem number_inj {left right : Nat} : number left = number right ↔ left = right := by
  constructor
  · intro same
    have digits : Nat.toDigits 10 left = Nat.toDigits 10 right := by
      have written : toString left = toString right := Label.text.inj same
      rwa [Nat.toString_eq_ofList_toDigits, Nat.toString_eq_ofList_toDigits, String.ofList_inj] at written
    have read := congrArg (fun chars => Nat.ofDigitChars 10 chars 0) digits
    rwa [Nat.ofDigitChars_toDigits (by decide) (by decide),
      Nat.ofDigitChars_toDigits (by decide) (by decide)] at read
  · rintro rfl
    rfl

theorem toString_ne_empty (value : Int) : toString value ≠ "" := by
  rw [Int.toString_eq_repr, Int.repr_eq_if]
  split <;> simp

theorem mem_inner_iff (value : Int) : value ∈ inner n ↔ ∃ place : Nat, 1 ≤ place ∧ place < n ∧ value = place := by
  simp only [inner, List.mem_map, List.mem_range]
  constructor
  · rintro ⟨index, below, rfl⟩
    exact ⟨index + 1, by omega, by omega, by simp⟩
  · rintro ⟨place, positive, below, rfl⟩
    exact ⟨place - 1, by omega, by simp only [Int.ofNat_eq_natCast]; omega⟩

def declarations (n : Int) : List NFA.Command :=
  .setStart (number 0) :: (inner n).map (fun value => .addState (number value)) ++ [.addFinal (number n)]

def links (n : Int) : List NFA.Command :=
  [.addTransition (number 0) (.text "a") (number 0), .addTransition (number 0) (.text "b") (number 0),
      .addTransition (number 0) (.text "a") (number 1)] ++
    (inner n).flatMap fun value =>
      [.addTransition (number value) (.text "a") (number (value + 1)),
        .addTransition (number value) (.text "b") (number (value + 1))]

theorem commands_eq (n : Int) : commands n = declarations n ++ links n := by
  simp [commands, declarations, links]

def IsLetter (symbol : Label) : Prop :=
  symbol = .text "a" ∨ symbol = .text "b"

def Letters (word : List Label) : Prop :=
  ∀ symbol ∈ word, IsLetter symbol

/-- The moves between the states: any number of symbols is passed over, an `a` is taken for the one that is looked
for, and the symbols after it are counted. -/
inductive Moves (n : Nat) : Nat → Label → Nat → Prop where
  | pass {letter : Label} : IsLetter letter → Moves n 0 letter 0
  | guess : Moves n 0 (.text "a") 1
  | count {letter : Label} {place : Nat} : IsLetter letter → 1 ≤ place → place < n →
      Moves n place letter (place + 1)

theorem Moves.letter {here there : Nat} {label : Label} (moves : Moves n here label there) : IsLetter label := by
  cases moves with
  | pass letter | count letter => exact letter
  | guess => exact .inl rfl

theorem IsLetter.real {label : Label} (letter : IsLetter label) : (label == standardEpsilon) = false := by
  rcases letter with rfl | rfl <;> rfl

theorem IsLetter.eq {label symbol : Label} (letter : IsLetter label) (reads : (label == symbol) = true) :
    symbol = label := by
  rcases letter with rfl | rfl <;> exact (Label.text_beq_iff ..).mp reads

theorem mem_links_iff (command : NFA.Command) : command ∈ links n ↔
    ∃ (here : Nat) (label : Label) (there : Nat),
      command = .addTransition (number here) label (number there) ∧ Moves n here label there := by
  simp only [links, List.mem_append, List.mem_flatMap, mem_inner_iff]
  constructor
  · rintro (first | ⟨_, ⟨place, positive, below, rfl⟩, counted⟩)
    · simp only [List.mem_cons, List.not_mem_nil, or_false] at first
      rcases first with rfl | rfl | rfl
      · exact ⟨0, _, 0, rfl, .pass (.inl rfl)⟩
      · exact ⟨0, _, 0, rfl, .pass (.inr rfl)⟩
      · exact ⟨0, _, 1, rfl, .guess⟩
    · simp only [List.mem_cons, List.not_mem_nil, or_false] at counted
      rcases counted with rfl | rfl
      · exact ⟨place, _, place + 1, rfl, .count (.inl rfl) positive below⟩
      · exact ⟨place, _, place + 1, rfl, .count (.inr rfl) positive below⟩
  · rintro ⟨here, label, there, rfl, moves⟩
    cases moves with
    | pass letter => rcases letter with rfl | rfl <;> exact .inl (by simp)
    | guess => exact .inl (by simp)
    | count letter positive below =>
        rcases letter with rfl | rfl <;> exact .inr ⟨here, ⟨here, positive, below, rfl⟩, by simp⟩

theorem asked_commands_iff (source label target : Label) : NFA.Asked (commands n) source label target ↔
    ∃ here there : Nat, source = number here ∧ target = number there ∧ Moves n here label there := by
  have declared : .addTransition source label target ∉ declarations n := by simp [declarations]
  rw [NFA.Asked, commands_eq, List.mem_append, mem_links_iff]
  constructor
  · rintro (early | ⟨here, _, there, asked, moves⟩)
    · exact absurd early declared
    · obtain ⟨rfl, rfl, rfl⟩ := NFA.Command.addTransition.inj asked
      exact ⟨here, there, rfl, rfl, moves⟩
  · rintro ⟨here, there, rfl, rfl, moves⟩
    exact .inr ⟨here, label, there, rfl, moves⟩

theorem loud_commands (source label target : Label) (asked : NFA.Asked (commands n) source label target) :
    (label == standardEpsilon) = false := by
  obtain ⟨here, there, -, -, moves⟩ := (asked_commands_iff ..).mp asked
  exact moves.letter.real

/-- The automaton can be at the place after the word: at the start always, and further on if there is an `a` so
far from the end. -/
def Marks (n : Nat) (word : List Label) : Nat → Prop
  | 0 => True
  | place + 1 => place < n ∧ word.reverse[place]? = some (.text "a")

theorem marks_of_moves (positive : 1 ≤ n) {word : List Label} {here there : Nat} {symbol : Label}
    (moves : Moves n here symbol there) (marks : Marks n word here) : Marks n (word ++ [symbol]) there := by
  cases moves with
  | pass => trivial
  | guess => exact ⟨positive, by simp⟩
  | count letter counted below =>
      cases here with
      | zero => omega
      | succ earlier => exact ⟨below, by simpa using marks.2⟩

theorem exists_move_of_marks {word : List Label} {there : Nat} {symbol : Label} (letter : IsLetter symbol)
    (marks : Marks n (word ++ [symbol]) there) : ∃ here, Moves n here symbol there ∧ Marks n word here := by
  match there, marks with
  | 0, _ => exact ⟨0, .pass letter, trivial⟩
  | 1, ⟨_, last⟩ =>
      obtain rfl : symbol = .text "a" := by simpa using last
      exact ⟨0, .guess, trivial⟩
  | place + 2, ⟨below, earlier⟩ =>
      exact ⟨place + 1, .count letter (by omega) below, by omega, by simpa using earlier⟩

theorem path_commands_iff (positive : 1 ≤ n) (word : List Label) (last : Label) :
    Path (NFA.Asked (commands n)) standardEpsilon (number 0) word last ↔
      Letters word ∧ ∃ place : Nat, last = number place ∧ Marks n word place := by
  -- from the end of the word, since its last symbol is what the places count from
  induction word using List.reverseRecOn generalizing last with
  | nil =>
      rw [Path.nil_iff loud_commands]
      constructor
      · rintro rfl
        exact ⟨by simp [Letters], 0, rfl, trivial⟩
      · rintro ⟨-, place, rfl, marks⟩
        cases place with
        | zero => rfl
        | succ earlier => simp [Marks] at marks
  | append_singleton word symbol ih =>
      rw [Path.concat_iff loud_commands]
      simp only [ih]
      constructor
      · rintro ⟨_, label, ⟨letters, place, rfl, marks⟩, asked, reads⟩
        obtain ⟨here, there, same, rfl, moves⟩ := (asked_commands_iff ..).mp asked
        obtain rfl := number_inj.mp same
        obtain rfl := moves.letter.eq reads
        exact ⟨List.forall_mem_append.mpr ⟨letters, List.forall_mem_singleton.mpr moves.letter⟩,
          there, rfl, marks_of_moves positive moves marks⟩
      · rintro ⟨letters, there, rfl, marks⟩
        obtain ⟨earlier, letter⟩ := List.forall_mem_append.mp letters
        obtain ⟨here, moves, before⟩ := exists_move_of_marks (List.forall_mem_singleton.mp letter) marks
        exact ⟨number here, symbol, ⟨earlier, here, rfl, before⟩,
          (asked_commands_iff ..).mpr ⟨here, there, rfl, rfl, moves⟩, BEq.rfl⟩

theorem newState_number (graph : Graph) (value : Int) : graph.newState (number value) =
    .ok (graph.born (toString value) (toString_ne_empty value), graph.grown) :=
  (Graph.newState_eq_ok_iff ..).mpr ⟨_, _, rfl, rfl, rfl⟩

theorem exists_perform_declaration {command : NFA.Command} (present : command ∈ declarations n) (nfa : NFA) :
    ∃ changed, nfa.perform command = .ok changed := by
  simp only [declarations, List.mem_append, List.mem_cons, List.mem_map, List.not_mem_nil, or_false] at present
  rcases present with (rfl | ⟨value, -, rfl⟩) | rfl <;>
    simp [NFA.perform, NFA.setStart, NFA.addState, NFA.addFinal, newState_number, bind, Except.bind, pure, Except.pure]

/-- The numbers of all states stand for states. -/
def Numbered (n : Nat) (nfa : NFA) : Prop :=
  ∀ place : Nat, place ≤ n → (nfa.find? (number place)).isSome = true

theorem created_empty : NFA.create standardEpsilon [] .empty = .ok (NFA.empty standardEpsilon .empty) := rfl

theorem numbered_declarations {declared : NFA}
    (success : (NFA.empty standardEpsilon .empty).performAll (declarations n) = .ok declared) :
    Numbered n declared := by
  intro place within
  rw [← NFA.replay_eq_of_performAll success, number, NFA.isSome_find?_replay created_empty,
    NFA.performed_of_performAll success]
  show NFA.latestStart (declarations n) = some (number place) ∨
    .addState (number place) ∈ declarations n ∨ .addFinal (number place) ∈ declarations n
  rcases Nat.eq_zero_or_pos place with rfl | positive
  · exact .inl (NFA.latestStart_cons (by simp))
  rcases Nat.lt_or_eq_of_le within with below | rfl
  · have inside : (place : Int) ∈ inner n := (mem_inner_iff _).mpr ⟨place, positive, below, rfl⟩
    exact .inr (.inl (by simpa [declarations] using ⟨_, inside, rfl⟩))
  · exact .inr (.inr (by simp [declarations]))

theorem exists_perform_link (positive : 1 ≤ n) {nfa : NFA} (numbered : Numbered n nfa) {command : NFA.Command}
    (present : command ∈ links n) : ∃ changed, nfa.perform command = .ok changed ∧ Numbered n changed := by
  obtain ⟨here, label, there, rfl, moves⟩ := (mem_links_iff command).mp present
  have bounds : here ≤ n ∧ there ≤ n := by cases moves <;> omega
  obtain ⟨origin, sourceFound⟩ := Option.isSome_iff_exists.mp (numbered here bounds.1)
  obtain ⟨goal, targetFound⟩ := Option.isSome_iff_exists.mp (numbered there bounds.2)
  have success : ∃ changed, nfa.perform (.addTransition (number here) label (number there)) = .ok changed := by
    simp [NFA.perform, NFA.addTransition, NFA.find, sourceFound, targetFound, bind, Except.bind, pure,
      Except.pure]
  obtain ⟨changed, performed⟩ := success
  refine ⟨changed, performed, fun place within => ?_⟩
  obtain ⟨state, found⟩ := Option.isSome_iff_exists.mp (numbered place within)
  rw [NFA.find?_of_perform performed (by simp) (by simp) found, Option.isSome_some]

theorem setStart_notMem_links (name : Label) : .setStart name ∉ links n := by
  intro present
  obtain ⟨_, _, _, other, -⟩ := (mem_links_iff _).mp present
  exact NFA.Command.noConfusion other

theorem addFinal_notMem_links (name : Label) : .addFinal name ∉ links n := by
  intro present
  obtain ⟨_, _, _, other, -⟩ := (mem_links_iff _).mp present
  exact NFA.Command.noConfusion other

theorem latestStart_commands : NFA.latestStart (commands n) = some (number 0) := by
  rw [commands_eq]
  refine NFA.latestStart_cons fun other present => ?_
  rcases List.mem_append.mp present with declared | linked
  · simp at declared
  · exact setStart_notMem_links other linked

theorem addFinal_mem_commands_iff (name : Label) : .addFinal name ∈ commands n ↔ name = number n := by
  rw [commands_eq, List.mem_append]
  simp [declarations, addFinal_notMem_links]

theorem nameStable_commands : (NFA.empty standardEpsilon .empty).NameStable (commands n) := by
  rw [commands_eq]
  exact NFA.nameStable_append (by simp [declarations]) setStart_notMem_links addFinal_notMem_links

/-- What is built: the automaton in which the transitions that were asked for are recorded. -/
structure Built (n : Nat) (nfa : NFA) (start : State) : Prop where
  recorded : nfa.Recorded (commands n)
  epsilon : nfa.epsilon = standardEpsilon
  started : nfa.initial = some start
  named : .text start.name = number 0

theorem exists_nthFromEnd (positive : 1 ≤ n) :
    ∃ nfa start, nthFromEnd n .empty = .ok nfa ∧ Built n nfa start := by
  obtain ⟨declared, declares, -⟩ := @NFA.exists_performAll (fun _ => True) (declarations n)
    (fun before _ command present =>
      (exists_perform_declaration present before).imp fun _ success => ⟨success, trivial⟩)
    (NFA.empty standardEpsilon .empty) trivial
  obtain ⟨nfa, linked, -⟩ := @NFA.exists_performAll (Numbered n) (links n)
    (fun _ numbered _ present => exists_perform_link positive numbered present)
    declared (numbered_declarations declares)
  have success : (NFA.empty standardEpsilon .empty).performAll (commands n) = .ok nfa := by
    rw [commands_eq, NFA.performAll_of_ok declares, linked]
  have recorded := NFA.recorded_replay created_empty (@nameStable_commands n)
  have marker := NFA.epsilon_replay created_empty (commands n)
  rw [NFA.replay_eq_of_performAll success] at recorded marker
  rw [NFA.performed_of_performAll success] at recorded
  obtain ⟨start, started, named⟩ := Option.map_eq_some_iff.mp (recorded.start.trans latestStart_commands)
  exact ⟨nfa, start, success, recorded, marker, started, named⟩

theorem Letters.unmarked {word : List Label} (letters : Letters word) : Unmarked standardEpsilon word :=
  fun symbol present => (letters symbol present).real

theorem Built.unmarked {nfa : NFA} {start : State} (built : Built n nfa start) {word : List Label}
    (letters : Letters word) : Unmarked nfa.epsilon word := by
  rw [built.epsilon]
  exact letters.unmarked

section Built

variable (positive : 1 ≤ n) {nfa : NFA} {start : State} (built : Built n nfa start)
include positive built

theorem Built.path_iff (word : List Label) (last : Label) :
    Path (NFA.Asked (commands n)) nfa.epsilon (.text start.name) word last ↔
      Letters word ∧ ∃ place : Nat, last = number place ∧ Marks n word place := by
  rw [built.epsilon, built.named, path_commands_iff positive]

theorem Built.isFinal_follow_iff {word : List Label} (unmarked : Unmarked nfa.epsilon word) :
    nfa.isFinal (nfa.follow (nfa.close [start]) word) = true ↔ Letters word ∧ Marks n word n := by
  rw [NFA.isFinal_iff]
  constructor
  · rintro ⟨state, reached, final⟩
    have path := (built.recorded.exists_name_follow_iff built.started unmarked state.name).mp ⟨state, reached, rfl⟩
    obtain ⟨letters, place, named, marks⟩ := (built.path_iff positive word _).mp path
    have last := (addFinal_mem_commands_iff _).mp ((built.recorded.final state.name).mp final)
    obtain rfl := number_inj.mp (named.symm.trans last)
    exact ⟨letters, marks⟩
  · rintro ⟨letters, marks⟩
    have path := (built.path_iff positive word (number n)).mpr ⟨letters, n, rfl, marks⟩
    obtain ⟨state, reached, named⟩ := (built.recorded.exists_name_follow_iff built.started unmarked _).mpr path
    refine ⟨state, reached, (built.recorded.final state.name).mpr ((addFinal_mem_commands_iff _).mpr ?_)⟩
    rw [named]
    rfl

theorem Built.accept_iff {word : List Label} (unmarked : Unmarked standardEpsilon word) :
    ∃ accepted, nfa.accept word = .ok accepted ∧ (accepted = true ↔ Letters word ∧ Marks n word n) := by
  rw [← built.epsilon] at unmarked
  exact ⟨_, NFA.accept_eq built.recorded.regular.sound built.started unmarked,
    built.isFinal_follow_iff positive unmarked⟩

end Built

/-- The mark at the last place says that the symbol so far from the end is an `a`. -/
theorem marks_last_iff (positive : 1 ≤ n) (word : List Label) :
    Marks n word n ↔ n ≤ word.length ∧ word[word.length - n]? = some (.text "a") := by
  obtain ⟨place, rfl⟩ := Nat.exists_eq_add_of_le' positive
  simp only [Marks]
  by_cases long : place < word.length
  · have within : place + 1 ≤ word.length := long
    rw [List.getElem?_reverse long, Nat.sub_sub, Nat.add_comm 1 place]
    simp [within]
  · have short : ¬ place + 1 ≤ word.length := long
    have missing : word.reverse[place]? = none := by simpa using long
    simp [missing, short]

theorem number_ne_one {value : Int} (few : value ≤ 0) : number value ≠ number 1 := by
  intro same
  have written : value.repr = "1" := Label.text.inj same
  rw [Int.repr_eq_if] at written
  split at written
  · obtain rfl : value = 0 := by omega
    exact absurd written (by decide)
  · have signed := congrArg (fun text => text.toList.head?) written
    simp at signed

/-- Without a state for the first link to lead to, the automaton is not built. -/
theorem nthFromEnd_eq_error {value : Int} (few : value ≤ 0) (graph : Graph) :
    nthFromEnd value graph = .error (.unknownState (number 1)) := by
  have none : inner value = [] := by
    have empty : (value - 1).toNat = 0 := by omega
    simp [inner, empty]
  -- the start is found under its own number, and nothing under the number one
  have start : (Label.text (toString (0 : Int)) == number 0) = true := by rfl
  have other : (Label.text (toString (0 : Int)) == number 1) = false := by rfl
  have final : (Label.text (toString value) == number 1) = false := by simpa [number] using number_ne_one few
  simp only [nthFromEnd, commands, none, List.map_nil, List.flatMap_nil, List.append_nil, List.cons_append,
    List.nil_append, NFA.performAll, List.foldlM_cons, bind, Except.bind, pure, Except.pure, NFA.perform,
    NFA.setStart, NFA.addFinal, NFA.addTransition, newState_number, Graph.born, NFA.empty, addNew, List.contains_nil,
    NFA.find, NFA.find?, NFA.declared, Option.toList_some, List.find?_cons, List.find?_nil, start, other, final,
    Bool.false_eq_true, if_false]

end Blowup

end FiniteAutomata
