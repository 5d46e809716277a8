import FiniteAutomata.DFA.Description
import FiniteAutomata.Proofs.DFA.Equality
import FiniteAutomata.Proofs.Text.Words

set_option autoImplicit false

/-!
What the description of a deterministic automaton tells, if its names and symbols are words. Two automata have one
description exactly if they are equal and have equal alphabets, and the table in it shows where each state moves on
each symbol.
-/

namespace FiniteAutomata

namespace DFA

theorem bracedLine_inj {left right : List Label} (leftWorded : Worded left) (rightWorded : Worded right)
    (title : String) : bracedLine title left = bracedLine title right ↔ left = right := by
  rw [bracedLine, bracedLine, String.append_left_inj, String.append_right_inj, ← leftWorded.map_plain_inj rightWorded]
  have blank : ' ' ∈ [' ', '\t', '\n'] := List.mem_cons_self ..
  exact intercalate_inj leftWorded.empty_notMem rightWorded.empty_notMem (leftWorded.forall_lacks blank)
    (rightWorded.forall_lacks blank)

/-- The automaton has words for its states, symbols and start, and no state is named by the dash that stands for a
missing move. -/
structure Describable (dfa : DFA) : Prop where
  states : ∀ state ∈ dfa.states.keys, state.IsWord ∧ state ≠ .text "-"
  alphabet : Worded dfa.alphabet
  initial : dfa.initial.IsWord

variable {dfa : DFA}

namespace Describable

variable (regular : dfa.Regular) (describable : dfa.Describable)

include describable in
theorem worded_states : Worded dfa.states.keys :=
  fun state here => (describable.states state here).1

include describable in
theorem mem_keys_iff (state : Label) : dfa.hasState state = true ↔ state ∈ dfa.states.keys := by
  rw [hasState, Table.contains_eq_contains_keys, describable.worded_states.contains_iff]

include regular describable

theorem worded_finals : Worded dfa.finals := fun state here =>
  describable.worded_states state ((describable.mem_keys_iff state).mp (regular.final state
    (List.contains_iff_exists_mem_beq.mpr ⟨state, here, BEq.rfl⟩)))

/-- A move leads to a word other than the dash. -/
theorem target {state symbol target : Label} (leads : dfa.target? state symbol = some target) :
    target.IsWord ∧ target.plain ≠ "-" := by
  obtain ⟨word, other⟩ :=
    describable.states target ((describable.mem_keys_iff target).mp (regular.target leads).2.2.2)
  refine ⟨word, fun dash => other ?_⟩
  rw [← word.text_plain, dash]

theorem cell_ne (state symbol : Label) : dfa.cell state symbol ≠ "" := by
  rw [cell]
  cases leads : dfa.target? state symbol with
  | none => simp
  | some target => exact (describable.target regular leads).1.plain_ne

theorem lacks_cell {mark : Char} (special : mark ∈ [' ', '\t', '\n']) (state symbol : Label) :
    Lacks mark (dfa.cell state symbol) := by
  rw [cell]
  cases leads : dfa.target? state symbol with
  | none =>
      have clear : ∀ mark ∈ [' ', '\t', '\n'], mark ∉ "-".toList := by simp
      exact clear mark special
  | some target => exact (describable.target regular leads).1.lacks special

end Describable

section Lines

def heading (dfa : DFA) : String :=
  "\t\t" ++ "\t".intercalate (dfa.sortedAlphabet.map Label.plain)

theorem lines_eq (dfa : DFA) : dfa.lines =
    bracedLine "Q" dfa.sortedStates :: bracedLine "Sigma" dfa.sortedAlphabet :: "delta =" :: dfa.heading ::
      (dfa.sortedStates.map dfa.row ++ ["q0 = " ++ dfa.initial.plain, bracedLine "F" dfa.sortedFinals]) := rfl

theorem lacks_bracedLine {labels : List Label} (worded : Worded labels) {mark : Char}
    (divides : mark ∈ ['\t', '\n']) {title : String} (titled : Lacks mark title) :
    Lacks mark (bracedLine title labels) := by
  have clear : ∀ mark ∈ ['\t', '\n'], mark ∉ " = \x7b ".toList ∧ mark ∉ " ".toList ∧ mark ∉ " \x7d".toList := by
    simp
  obtain ⟨opens, between, closes⟩ := clear mark divides
  have names := worded.forall_lacks (List.mem_cons_of_mem ' ' divides)
  exact lacks_append.mpr ⟨lacks_append.mpr ⟨lacks_append.mpr ⟨titled, opens⟩, lacks_intercalate between names⟩, closes⟩

variable (regular : dfa.Regular) (describable : dfa.Describable)
include regular describable

theorem forall_lacks_break : ∀ line ∈ dfa.lines, Lacks '\n' line := by
  have divides : '\n' ∈ ['\t', '\n'] := by decide
  have special : '\n' ∈ [' ', '\t', '\n'] := by decide
  have braced {labels : List Label} (worded : Worded labels) {title : String} (titled : Lacks '\n' title) :=
    lacks_bracedLine worded divides titled
  have tabulated : Lacks '\n' "\t" := by simp [Lacks]
  have symbols := lacks_intercalate tabulated (describable.alphabet.sorted.forall_lacks special)
  rw [lines_eq]
  simp only [List.forall_mem_cons, List.forall_mem_append, List.forall_mem_map, List.not_mem_nil,
    false_imp_iff, implies_true, and_true]
  refine ⟨?_, ?_, ?_, ?_, ?_, ?_, ?_⟩
  · exact braced describable.worded_states.sorted (by simp [Lacks])
  · exact braced describable.alphabet.sorted (by simp [Lacks])
  · simp [Lacks]
  · exact lacks_append.mpr ⟨by simp [Lacks], symbols⟩
  · intro state here
    have cells : ∀ item ∈ dfa.sortedAlphabet.map (dfa.cell state), Lacks '\n' item :=
      List.forall_mem_map.mpr fun symbol _ => describable.lacks_cell regular special state symbol
    have name := (describable.worded_states.sorted state here).lacks special
    exact lacks_append.mpr ⟨lacks_append.mpr ⟨lacks_append.mpr ⟨tabulated, name⟩, tabulated⟩,
      lacks_intercalate tabulated cells⟩
  · exact lacks_append.mpr ⟨by simp [Lacks], describable.initial.lacks special⟩
  · exact braced (describable.worded_finals regular).sorted (by simp [Lacks])

theorem parts_describe : parts '\n' dfa.describe = dfa.lines :=
  parts_intercalate (forall_lacks_break regular describable)

omit regular in
theorem parts_heading : parts '\t' dfa.heading = "" :: "" :: fields (dfa.sortedAlphabet.map Label.plain) := by
  have blank : Lacks '\t' "" := by simp [Lacks]
  have symbols : ∀ item ∈ dfa.sortedAlphabet.map Label.plain, Lacks '\t' item :=
    describable.alphabet.sorted.forall_lacks (by decide)
  have written : dfa.heading = "" ++ String.singleton '\t' ++ ("" ++ String.singleton '\t' ++
      (String.singleton '\t').intercalate (dfa.sortedAlphabet.map Label.plain)) := by
    rw [String.empty_append, ← String.append_assoc]
    rfl
  rw [written, parts_append blank, parts_append blank, parts_intercalate symbols]

theorem parts_row {state : Label} (word : state.IsWord) : parts '\t' (dfa.row state) =
    "" :: state.plain :: fields (dfa.sortedAlphabet.map (dfa.cell state)) := by
  have special : '\t' ∈ [' ', '\t', '\n'] := by decide
  have blank : Lacks '\t' "" := by simp [Lacks]
  have cells : ∀ item ∈ dfa.sortedAlphabet.map (dfa.cell state), Lacks '\t' item :=
    List.forall_mem_map.mpr fun symbol _ => describable.lacks_cell regular special state symbol
  have written : dfa.row state = "" ++ String.singleton '\t' ++ (state.plain ++ String.singleton '\t' ++
      (String.singleton '\t').intercalate (dfa.sortedAlphabet.map (dfa.cell state))) := by
    rw [String.empty_append, ← String.append_assoc, ← String.append_assoc]
    rfl
  rw [written, parts_append blank, parts_append (word.lacks special), parts_intercalate cells]

end Lines

section Comparing

variable {left right : DFA} (leftRegular : left.Regular) (rightRegular : right.Regular)
  (leftDescribable : left.Describable) (rightDescribable : right.Describable)
include leftRegular rightRegular leftDescribable rightDescribable

theorem describe_eq_iff_lines : left.describe = right.describe ↔ left.lines = right.lines := by
  refine ⟨fun same => ?_, congrArg _⟩
  rw [← parts_describe leftRegular leftDescribable, same, parts_describe rightRegular rightDescribable]

theorem cell_eq_iff (state symbol : Label) : left.cell state symbol = right.cell state symbol ↔
    left.target? state symbol = right.target? state symbol := by
  refine ⟨fun same => ?_, fun same => by rw [cell, cell, same]⟩
  simp only [cell] at same
  cases leads : left.target? state symbol with
  | none =>
      cases arrives : right.target? state symbol with
      | none => rfl
      | some reached =>
          rw [leads, arrives] at same
          exact absurd same.symm (rightDescribable.target rightRegular arrives).2
  | some target =>
      cases arrives : right.target? state symbol with
      | none =>
          rw [leads, arrives] at same
          exact absurd same (leftDescribable.target leftRegular leads).2
      | some reached =>
          rw [leads, arrives] at same
          rw [(leftDescribable.target leftRegular leads).1.eq_of_plain
            (rightDescribable.target rightRegular arrives).1 same]

theorem row_eq_iff (alphabets : left.sortedAlphabet = right.sortedAlphabet) (state : Label) :
    left.row state = right.row state ↔
      ∀ symbol ∈ left.sortedAlphabet, left.target? state symbol = right.target? state symbol := by
  have special : '\t' ∈ [' ', '\t', '\n'] := by decide
  have filled {dfa : DFA} (regular : dfa.Regular) (describable : dfa.Describable) (symbols : List Label) :
      "" ∉ symbols.map (dfa.cell state) := by
    intro present
    obtain ⟨symbol, -, empty⟩ := List.mem_map.mp present
    exact describable.cell_ne regular state symbol empty
  have within {dfa : DFA} (regular : dfa.Regular) (describable : dfa.Describable) (symbols : List Label) :
      ∀ item ∈ symbols.map (dfa.cell state), Lacks '\t' item :=
    List.forall_mem_map.mpr fun symbol _ => describable.lacks_cell regular special state symbol
  rw [row, row, String.append_right_inj, ← alphabets]
  calc
    _ ↔ left.sortedAlphabet.map (left.cell state) = left.sortedAlphabet.map (right.cell state) :=
      intercalate_inj (filled leftRegular leftDescribable _) (filled rightRegular rightDescribable _)
        (within leftRegular leftDescribable _) (within rightRegular rightDescribable _)
    _ ↔ _ := by
      rw [List.map_inj_left]
      simp only [cell_eq_iff leftRegular rightRegular leftDescribable rightDescribable]

theorem lines_eq_iff : left.lines = right.lines ↔ left.sortedStates = right.sortedStates ∧
    left.sortedAlphabet = right.sortedAlphabet ∧ (∀ state ∈ left.sortedStates, ∀ symbol ∈ left.sortedAlphabet,
      left.target? state symbol = right.target? state symbol) ∧ left.initial = right.initial ∧
    left.sortedFinals = right.sortedFinals := by
  have states := bracedLine_inj leftDescribable.worded_states.sorted rightDescribable.worded_states.sorted "Q"
  have symbols := bracedLine_inj leftDescribable.alphabet.sorted rightDescribable.alphabet.sorted "Sigma"
  have finals := bracedLine_inj (leftDescribable.worded_finals leftRegular).sorted
    (rightDescribable.worded_finals rightRegular).sorted "F"
  have rows := row_eq_iff leftRegular rightRegular leftDescribable rightDescribable
  rw [lines_eq, lines_eq]
  constructor
  · intro same
    simp only [List.cons.injEq] at same
    obtain ⟨first, second, -, -, rest⟩ := same
    obtain ⟨table, last⟩ := List.append_inj' rest rfl
    simp only [List.cons.injEq, and_true, String.append_right_inj] at last
    have sameStates : left.sortedStates = right.sortedStates := states.mp first
    have sameSymbols : left.sortedAlphabet = right.sortedAlphabet := symbols.mp second
    rw [← sameStates, List.map_inj_left] at table
    exact ⟨sameStates, sameSymbols, fun state here => (rows sameSymbols state).mp (table state here),
      leftDescribable.initial.eq_of_plain rightDescribable.initial last.1, finals.mp last.2⟩
  · rintro ⟨sameStates, sameSymbols, moves, starts, ends⟩
    have table : left.sortedStates.map left.row = left.sortedStates.map right.row :=
      List.map_congr_left fun state here => (rows sameSymbols state).mpr (moves state here)
    rw [table, heading, heading, sameStates, sameSymbols, starts, ends]

omit rightDescribable in
theorem forall_target_iff (states : ∀ state, left.hasState state = right.hasState state)
    (symbols : ∀ symbol, left.alphabet.contains symbol = right.alphabet.contains symbol) :
    (∀ state ∈ left.sortedStates, ∀ symbol ∈ left.sortedAlphabet,
      left.target? state symbol = right.target? state symbol) ↔
        ∀ source symbol target, left.Moves source symbol target ↔ right.Moves source symbol target := by
  constructor
  · intro agree source symbol target
    by_cases known : left.hasState source = true ∧ left.alphabet.contains symbol = true
    · have here := (leftDescribable.mem_keys_iff source).mp known.1
      have letter := (leftDescribable.alphabet.contains_iff symbol).mp known.2
      rw [Moves, Moves, agree source ((mem_sortOn ..).mpr here) symbol ((mem_sortOn ..).mpr letter)]
    · -- neither automaton moves from what is no state or on what is no symbol
      refine iff_of_false ?_ ?_
      · rintro ⟨found, leads, -⟩
        obtain ⟨begins, -, reads, -⟩ := leftRegular.target leads
        exact known ⟨begins, reads⟩
      · rintro ⟨found, leads, -⟩
        obtain ⟨begins, -, reads, -⟩ := rightRegular.target leads
        exact known ⟨(states source).trans begins, (symbols symbol).trans reads⟩
  · intro agree state _ symbol _
    have same := (target_beq_iff (left.target? state symbol) (right.target? state symbol)).mpr (agree state symbol)
    cases leads : left.target? state symbol with
    | none =>
        cases arrives : right.target? state symbol with
        | none => rfl
        | some reached => simp [leads, arrives] at same
    | some target =>
        cases arrives : right.target? state symbol with
        | none => simp [leads, arrives] at same
        | some reached =>
            rw [leads, arrives, Option.some_beq_some] at same
            rw [(leftDescribable.target leftRegular leads).1.eq_of_beq same]

theorem describe_eq_iff : left.describe = right.describe ↔
    (left == right) = true ∧ sameMembers left.alphabet right.alphabet = true := by
  have states : left.sortedStates = right.sortedStates ↔ ∀ state, left.hasState state = right.hasState state := by
    simp only [hasState, Table.contains_eq_contains_keys]
    exact leftDescribable.worded_states.sortOn_eq_iff rightDescribable.worded_states leftRegular.states
      rightRegular.states
  have symbols : left.sortedAlphabet = right.sortedAlphabet ↔
      ∀ symbol, left.alphabet.contains symbol = right.alphabet.contains symbol :=
    leftDescribable.alphabet.sortOn_eq_iff rightDescribable.alphabet leftRegular.alphabet rightRegular.alphabet
  have finals : left.sortedFinals = right.sortedFinals ↔ ∀ state, left.isFinal state = right.isFinal state :=
    (leftDescribable.worded_finals leftRegular).sortOn_eq_iff (rightDescribable.worded_finals rightRegular)
      leftRegular.finals rightRegular.finals
  have moves := forall_target_iff leftRegular rightRegular leftDescribable
  rw [describe_eq_iff_lines leftRegular rightRegular leftDescribable rightDescribable,
    lines_eq_iff leftRegular rightRegular leftDescribable rightDescribable, beq_iff_alike leftRegular rightRegular,
    sameMembers_iff, states, symbols, finals]
  constructor
  · rintro ⟨sameStates, sameSymbols, targets, start, sameFinals⟩
    exact ⟨⟨by rw [start, BEq.rfl], sameStates, sameFinals, (moves sameStates sameSymbols).mp targets⟩, sameSymbols⟩
  · rintro ⟨alike, sameSymbols⟩
    exact ⟨alike.states, sameSymbols, (moves alike.states sameSymbols).mpr alike.moves,
      (leftDescribable.initial.eq_of_beq alike.initial).symm, alike.finals⟩

end Comparing

section Tabulating

/-- The text has one line for each state and one column for each symbol, and where they meet it shows where the state
moves on the symbol, or a dash. -/
structure Tabulates (dfa : DFA) (text : String) : Prop where
  row : ∀ state, dfa.hasState state = true → ∃! line, field? text line 1 = some state.plain
  column : ∀ symbol, dfa.alphabet.contains symbol = true → ∃! column, field? text 3 column = some symbol.plain
  entry : ∀ state symbol line column, dfa.hasState state = true → dfa.alphabet.contains symbol = true →
    field? text line 1 = some state.plain → field? text 3 column = some symbol.plain →
      ∃ target, dfa.next state symbol = .ok target ∧
        field? text line column = some (if isNull target then "-" else target.plain)

variable (regular : dfa.Regular) (describable : dfa.Describable)
include regular describable

theorem field?_describe (line column : Nat) : field? dfa.describe line column =
    dfa.lines[line]?.bind fun text => (parts '\t' text)[column]? := by
  rw [field?, parts_describe regular describable]

/-- What stands in the second column, line by line. -/
theorem second_fields : dfa.lines.map (fun line => (parts '\t' line)[1]?) =
    none :: none :: none :: some "" :: (dfa.sortedStates.map (fun state => some state.plain) ++ [none, none]) := by
  have divides : '\t' ∈ ['\t', '\n'] := by decide
  have special : '\t' ∈ [' ', '\t', '\n'] := by decide
  have whole {line : String} (clear : Lacks '\t' line) : (parts '\t' line)[1]? = none := by
    rw [parts_of_lacks clear]
    rfl
  have braced {labels : List Label} (worded : Worded labels) {title : String} (titled : Lacks '\t' title) :=
    whole (lacks_bracedLine worded divides titled)
  have states : (parts '\t' (bracedLine "Q" dfa.sortedStates))[1]? = none :=
    braced describable.worded_states.sorted (by simp [Lacks])
  have symbols : (parts '\t' (bracedLine "Sigma" dfa.sortedAlphabet))[1]? = none :=
    braced describable.alphabet.sorted (by simp [Lacks])
  have delta : (parts '\t' "delta =")[1]? = none := whole (by simp [Lacks])
  have title : (parts '\t' dfa.heading)[1]? = some "" := by
    rw [parts_heading describable]
    rfl
  have finals : (parts '\t' (bracedLine "F" dfa.sortedFinals))[1]? = none :=
    braced (describable.worded_finals regular).sorted (by simp [Lacks])
  have start : (parts '\t' ("q0 = " ++ dfa.initial.plain))[1]? = none :=
    whole (lacks_append.mpr ⟨by simp [Lacks], describable.initial.lacks special⟩)
  have rows : dfa.sortedStates.map ((fun line => (parts '\t' line)[1]?) ∘ dfa.row) =
      dfa.sortedStates.map fun state => some state.plain :=
    List.map_congr_left fun state here => by
      rw [Function.comp_apply, parts_row regular describable (describable.worded_states.sorted state here)]
      rfl
  simp only [lines_eq, List.map_cons, List.map_append, List.map_map, List.map_nil, rows, states, symbols, delta, title,
    start, finals]

theorem field?_row_iff (line : Nat) {text : String} (filled : text ≠ "") :
    field? dfa.describe line 1 = some text ↔
      ∃ place, line = place + 4 ∧ (dfa.sortedStates.map Label.plain)[place]? = some text := by
  have told : field? dfa.describe line 1 = some text ↔
      (dfa.lines.map fun line => (parts '\t' line)[1]?)[line]? = some (some text) := by
    rw [field?_describe regular describable, List.getElem?_map, Option.bind_eq_some_iff, Option.map_eq_some_iff]
  rw [told, second_fields regular describable]
  rcases line with _ | _ | _ | _ | place
  · simp
  · simp
  · simp
  · simp [filled.symm]
  · -- the lines after the rows have no second column
    simp only [List.getElem?_cons_succ, Nat.add_right_cancel_iff, exists_eq_left']
    by_cases within : place < dfa.sortedStates.length
    · rw [List.getElem?_append_left (by simpa using within)]
      simp
    · have beyond : dfa.sortedStates.length ≤ place := Nat.le_of_not_lt within
      have missing : dfa.sortedStates[place]? = none := List.getElem?_eq_none beyond
      rw [List.getElem?_append_right (by simpa using beyond), List.getElem?_map, missing]
      rcases place - (dfa.sortedStates.map fun state => some state.plain).length with _ | _ | _ <;> simp

theorem field?_heading_iff (column : Nat) {text : String} (filled : text ≠ "") :
    field? dfa.describe 3 column = some text ↔
      ∃ place, column = place + 2 ∧ (dfa.sortedAlphabet.map Label.plain)[place]? = some text := by
  have title : dfa.lines[3]? = some dfa.heading := rfl
  rw [field?_describe regular describable, title, Option.bind_some, parts_heading describable]
  rcases column with _ | _ | place
  · simp [filled.symm]
  · simp [filled.symm]
  · simp only [List.getElem?_cons_succ, Nat.add_right_cancel_iff, exists_eq_left',
      getElem?_fields_iff _ _ filled]

theorem field?_cell {line column : Nat} {state symbol : Label} (here : dfa.sortedStates[line]? = some state)
    (letter : dfa.sortedAlphabet[column]? = some symbol) :
    field? dfa.describe (line + 4) (column + 2) = some (dfa.cell state symbol) := by
  have word := describable.worded_states.sorted state (List.mem_of_getElem? here)
  obtain ⟨within, -⟩ := List.getElem?_eq_some_iff.mp here
  have row : dfa.lines[line + 4]? = some (dfa.row state) := by
    rw [lines_eq]
    simp only [List.getElem?_cons_succ]
    rw [List.getElem?_append_left (by simpa using within), List.getElem?_map, here, Option.map_some]
  rw [field?_describe regular describable, row, Option.bind_some, parts_row regular describable word]
  simp only [List.getElem?_cons_succ]
  rw [getElem?_fields_iff _ _ (describable.cell_ne regular state symbol), List.getElem?_map, letter, Option.map_some]

theorem tabulates_describe : dfa.Tabulates dfa.describe := by
  have states := describable.worded_states.sorted
  have symbols := describable.alphabet.sorted
  have apartStates : Apart dfa.sortedStates := regular.states.of_perm (sortOn_perm ..).symm
  have apartSymbols : Apart dfa.sortedAlphabet := regular.alphabet.of_perm (sortOn_perm ..).symm
  have listed {state : Label} (known : dfa.hasState state = true) : state ∈ dfa.sortedStates :=
    (mem_sortOn ..).mpr ((describable.mem_keys_iff state).mp known)
  have lettered {symbol : Label} (known : dfa.alphabet.contains symbol = true) : symbol ∈ dfa.sortedAlphabet :=
    (mem_sortOn ..).mpr ((describable.alphabet.contains_iff symbol).mp known)
  constructor
  case row =>
    intro state known
    have shows := fun line => field?_row_iff regular describable line (states state (listed known)).plain_ne
    obtain ⟨place, found, single⟩ := states.existsUnique_place apartStates (listed known)
    refine ⟨place + 4, (shows _).mpr ⟨place, rfl, found⟩, fun line shown => ?_⟩
    obtain ⟨other, rfl, again⟩ := (shows line).mp shown
    rw [single other again]
  case column =>
    intro symbol known
    have shows := fun column => field?_heading_iff regular describable column (symbols symbol (lettered known)).plain_ne
    obtain ⟨place, found, single⟩ := symbols.existsUnique_place apartSymbols (lettered known)
    refine ⟨place + 2, (shows _).mpr ⟨place, rfl, found⟩, fun column shown => ?_⟩
    obtain ⟨other, rfl, again⟩ := (shows column).mp shown
    rw [single other again]
  case entry =>
    intro state symbol line column known letter row heading
    have stateWord := states state (listed known)
    have symbolWord := symbols symbol (lettered letter)
    have real := regular.real symbol ((describable.alphabet.contains_iff symbol).mp letter)
    obtain ⟨place, rfl, here⟩ := (field?_row_iff regular describable line stateWord.plain_ne).mp row
    obtain ⟨other, rfl, there⟩ := (field?_heading_iff regular describable column symbolWord.plain_ne).mp heading
    refine ⟨_, next_of_real state real, ?_⟩
    rw [field?_cell regular describable (states.getElem?_of_plain stateWord here)
      (symbols.getElem?_of_plain symbolWord there), cell]
    cases leads : dfa.target? state symbol with
    | none => rfl
    | some target =>
        obtain ⟨text, rfl, -⟩ := (describable.target regular leads).1
        rfl

end Tabulating

/-- After any two runs that leave words, with no state named by a dash, the automata have one description if and only if
they are equal and so are their alphabets, and the table in each description shows where the states move. -/
theorem describe_replay (initial epsilon : Label) (commands : List Command) (other marker : Label)
    (others : List Command) (words : ((empty initial epsilon).replay commands).Describable)
    (otherWords : ((empty other marker).replay others).Describable) :
    (((empty initial epsilon).replay commands).describe = ((empty other marker).replay others).describe ↔
      ((empty initial epsilon).replay commands == (empty other marker).replay others) = true ∧
        sameMembers ((empty initial epsilon).replay commands).alphabet
          ((empty other marker).replay others).alphabet = true) ∧
    ((empty initial epsilon).replay commands).Tabulates ((empty initial epsilon).replay commands).describe ∧
    ((empty other marker).replay others).Tabulates ((empty other marker).replay others).describe := by
  have left := (regular_empty initial epsilon).replay commands
  have right := (regular_empty other marker).replay others
  exact ⟨describe_eq_iff left right words otherWords, tabulates_describe left words,
    tabulates_describe right otherWords⟩

/-- A run whose names and symbols could be taken for signs of the description. -/
def signs : List Command := [.addState (.text "p") [], .addFinal (.text "\x7d") [.text "x"], .addSymbol (.text "="),
  .addTransition (.text "p") (.text "-") (.text "\x7d")]

/-- A run that makes an equal automaton in another order. -/
def shuffledSigns : List Command := [.addFinal (.text "\x7d") [], .addState (.text "p") [],
  .addTransition (.text "p") (.text "-") (.text "p"), .addTransition (.text "p") (.text "-") (.text "\x7d"),
  .addSymbol (.text "=")]

theorem describe_replay_signs :
    ((empty (.text "q0") (.text "e")).replay signs).Describable ∧
    ((empty (.text "q0") .null).replay shuffledSigns).Describable ∧
    ((empty (.text "q0") (.text "e")).replay signs).describe =
      ((empty (.text "q0") .null).replay shuffledSigns).describe ∧
    ∃ line column, field? ((empty (.text "q0") (.text "e")).replay signs).describe line 1 = some "p" ∧
      field? ((empty (.text "q0") (.text "e")).replay signs).describe 3 column = some "-" ∧
      field? ((empty (.text "q0") (.text "e")).replay signs).describe line column = some "\x7d" := by
  have word (text : String) (filled : text ≠ "") (clear : ∀ mark ∈ [' ', '\t', '\n'], mark ∉ text.toList) :
      (Label.text text).IsWord := ⟨text, rfl, filled, clear⟩
  have start := word "q0" (by decide) (by simp)
  have p := word "p" (by decide) (by simp)
  have brace := word "\x7d" (by decide) (by simp)
  have dash := word "-" (by decide) (by simp)
  have sign := word "=" (by decide) (by simp)
  have left : ((empty (.text "q0") (.text "e")).replay signs).Describable := by
    refine ⟨?_, ?_, start⟩
    · have keys : ((empty (.text "q0") (.text "e")).replay signs).states.keys = [.text "p", .text "\x7d"] := by rfl
      simp [keys, p, brace]
    · have letters : ((empty (.text "q0") (.text "e")).replay signs).alphabet = [.text "=", .text "-"] := by rfl
      simp [letters, Worded, dash, sign]
  have right : ((empty (.text "q0") .null).replay shuffledSigns).Describable := by
    refine ⟨?_, ?_, start⟩
    · have keys : ((empty (.text "q0") .null).replay shuffledSigns).states.keys = [.text "\x7d", .text "p"] := by rfl
      simp [keys, p, brace]
    · have letters : ((empty (.text "q0") .null).replay shuffledSigns).alphabet = [.text "-", .text "="] := by rfl
      simp [letters, Worded, dash, sign]
  obtain ⟨told, table, -⟩ := describe_replay (.text "q0") (.text "e") signs (.text "q0") .null shuffledSigns left right
  obtain ⟨line, row, -⟩ := table.row (.text "p") (by rfl)
  obtain ⟨column, heading, -⟩ := table.column (.text "-") (by rfl)
  obtain ⟨target, moved, shown⟩ := table.entry (.text "p") (.text "-") line column (by rfl) (by rfl) row heading
  have leads : ((empty (.text "q0") (.text "e")).replay signs).next (.text "p") (.text "-") =
      .ok (.text "\x7d") := by rfl
  obtain rfl := Except.ok.inj (moved.symm.trans leads)
  exact ⟨left, right, told.mpr ⟨by rfl, by rfl⟩, line, column, row, heading, shown⟩

end DFA

end FiniteAutomata
