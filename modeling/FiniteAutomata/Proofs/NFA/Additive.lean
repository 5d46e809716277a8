import FiniteAutomata.Proofs.NFA.Closure
import FiniteAutomata.Proofs.Namer.Injective

set_option autoImplicit false

/-!
Reading after a stable run from two lists of states at once. The states after a word are those after it from the one
list and those after it from the other, although a state is taken up once only where both lists lead to it.
-/

namespace FiniteAutomata

theorem nameSet_eraseDups (states : List State) : nameSet states.eraseDups = nameSet states := by
  ext name
  simp only [mem_nameSet, ← List.mem_map, StateSet.names_eraseDups, List.mem_eraseDups]

namespace NFA

variable {nfa : NFA}

section Coherence

variable (coherent : nfa.Coherent)
include coherent

theorem mem_step_append_iff (left right : List State) (symbol : Label) (state : State) :
    state ∈ nfa.close (nfa.move (left ++ right) symbol) ↔
      state ∈ nfa.close (nfa.move left symbol) ++ nfa.close (nfa.move right symbol) := by
  simp only [List.mem_append, mem_close_iff coherent (current_move coherent), mem_move_iff coherent, or_and_right,
    exists_or]

/-- The states after a word from two lists are those from each of them. -/
theorem mem_follow_append_iff (left right : List State) (word : List Label) (state : State) :
    state ∈ nfa.follow (left ++ right) word ↔ state ∈ nfa.follow left word ∨ state ∈ nfa.follow right word := by
  -- a step from both lists is no append of two steps, but it leads to the same states as one
  induction word generalizing left right with
  | nil => exact List.mem_append
  | cons symbol rest ih =>
      rw [follow_cons, mem_follow_congr coherent (mem_step_append_iff coherent left right symbol), ih]
      rfl

theorem nameSet_follow_append (left right : List State) (word : List Label) :
    nameSet (nfa.follow (left ++ right) word) = nameSet (nfa.follow left word) ∪ nameSet (nfa.follow right word) := by
  ext name
  simp [mem_follow_append_iff coherent, or_and_right, exists_or]

theorem nameSet_move (states : List State) (symbol : Label) :
    nameSet (nfa.move states symbol) = nameSet (states.flatMap fun state => nfa.graph.targets state symbol) := by
  ext name
  simp only [mem_nameSet, mem_move_iff coherent, Leads, List.mem_flatMap]

/-- Closing what one step leads to, as it is recorded, gives the states after the symbol. -/
theorem closedNames_moved (sound : nfa.graph.Sound) (states : List State) (symbol : Label) :
    nfa.closedNames ((nfa.moved states symbol).map .member) = .ok (nameSet (nfa.close (nfa.move states symbol))) := by
  -- which of the states of one name is left is not told, but closing asks for their names only
  have borne : ∀ name ∈ nameSet (states.flatMap fun state => nfa.graph.targets state symbol).eraseDups,
      ∃ state, nfa.Current state ∧ state.name = name := by
    rw [nameSet_eraseDups, ← nameSet_move coherent]
    rintro _ ⟨state, present, rfl⟩
    exact ⟨state, current_move coherent state present, rfl⟩
  have listed : (nfa.moved states symbol).map Operand.member =
      Operand.ofStates (states.flatMap fun state => nfa.graph.targets state symbol).eraseDups := by
    rw [moved_of_sound sound, List.map_map]
    rfl
  rw [listed, closedNames_eq sound coherent (resolves_ofStates borne), Operand.names_ofStates, nameSet_eraseDups,
    ← nameSet_move coherent, nameSet_close sound coherent (current_move coherent)]

end Coherence

theorem moveAmong_ofStates (nfa : NFA) (states : List State) (symbol : Label) :
    nfa.moveAmong (Operand.ofStates states) symbol = .ok (nfa.moved states symbol) := by
  have given : (Operand.ofStates states).mapM Operand.asState = .ok states := by
    rw [Operand.ofStates, List.mapM_map]
    exact (List.mapM_pure).trans (congrArg Except.ok states.map_id)
  simp only [moveAmong, given, bind, Except.bind, pure, Except.pure]

/-- After a stable run, reading a word from two lists of states gives the states after it from each of them, and one
symbol leads to what closing gives for the moves from each. -/
theorem reading_additive {epsilon : Label} {symbols : List Label} {fresh : NFA}
    (created : create epsilon symbols .empty = .ok fresh) {commands : List Command}
    (stable : fresh.NameStable commands) :
    (∀ left right word, Unmarked epsilon word → ∃ whole first second,
      word.foldlM (fresh.replay commands).next (left ++ right) = .ok whole ∧
      word.foldlM (fresh.replay commands).next left = .ok first ∧
      word.foldlM (fresh.replay commands).next right = .ok second ∧
      nameSet whole = nameSet first ∪ nameSet second) ∧
    ∀ left right symbol, (symbol == epsilon) = false → ∃ whole movedLeft movedRight names more,
      (fresh.replay commands).next (left ++ right) symbol = .ok whole ∧
      (fresh.replay commands).moveAmong (Operand.ofStates left) symbol = .ok movedLeft ∧
      (fresh.replay commands).moveAmong (Operand.ofStates right) symbol = .ok movedRight ∧
      (fresh.replay commands).closedNames (movedLeft.map .member) = .ok names ∧
      (fresh.replay commands).closedNames (movedRight.map .member) = .ok more ∧
      nameSet whole = names ∪ more := by
  have sound := ((regular_of_create created).replay commands).sound
  have coherent := (faithful_replay created stable).coherent
  have marker := epsilon_replay created commands
  generalize fresh.replay commands = nfa at sound coherent marker ⊢
  subst marker
  constructor
  · intro left right word unmarked
    exact ⟨_, _, _, foldlM_next sound _ unmarked, foldlM_next sound _ unmarked, foldlM_next sound _ unmarked,
      nameSet_follow_append coherent left right word⟩
  · intro left right symbol real
    refine ⟨_, _, _, _, _, next_eq sound _ real, nfa.moveAmong_ofStates left symbol,
      nfa.moveAmong_ofStates right symbol, closedNames_moved coherent sound left symbol,
      closedNames_moved coherent sound right symbol, ?_⟩
    exact nameSet_follow_append coherent left right [symbol]

theorem reading_additive_silentCycle :
    create standardEpsilon [] .empty = .ok (empty standardEpsilon .empty) ∧
      (empty standardEpsilon .empty).NameStable silentCycle ∧
      ((empty standardEpsilon .empty).replay silentCycle).find (.text "q") = .ok ⟨1, "q", by decide⟩ ∧
      ((empty standardEpsilon .empty).replay silentCycle).find (.text "f") = .ok ⟨3, "f", by decide⟩ ∧
      Unmarked standardEpsilon [.text "a"] ∧ (Label.text "a" == standardEpsilon) = false ∧
      (∃ whole, [.text "a"].foldlM ((empty standardEpsilon .empty).replay silentCycle).next
          [⟨1, "q", by decide⟩, ⟨3, "f", by decide⟩] = .ok whole ∧
        nameSet whole = nameSet [⟨3, "f", by decide⟩] ∪ nameSet []) ∧
      ∃ whole names more, ((empty standardEpsilon .empty).replay silentCycle).next
          [⟨1, "q", by decide⟩, ⟨3, "f", by decide⟩] (.text "a") = .ok whole ∧
        "f" ∈ names ∧ nameSet whole = names ∪ more := by
  have created : create standardEpsilon [] .empty = .ok (empty standardEpsilon .empty) := rfl
  obtain ⟨words, symbols⟩ := reading_additive created nameStable_silentCycle
  obtain ⟨whole, first, second, read, fromLeft, fromRight, union⟩ :=
    words [⟨1, "q", by decide⟩] [⟨3, "f", by decide⟩] _ unmarked_a
  obtain ⟨reached, moved, _, names, more, next, step, -, closed, -, both⟩ :=
    symbols [⟨1, "q", by decide⟩] [⟨3, "f", by decide⟩] (.text "a") rfl
  obtain rfl := Except.ok.inj fromLeft
  obtain rfl := Except.ok.inj fromRight
  obtain rfl := Except.ok.inj step
  obtain rfl : nameSet [⟨3, "f", by decide⟩] = names := Except.ok.inj closed
  exact ⟨created, nameStable_silentCycle, rfl, rfl, unmarked_a, rfl, ⟨whole, read, union⟩,
    reached, _, more, next, by simp, both⟩

end NFA

end FiniteAutomata
