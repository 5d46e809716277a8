import FiniteAutomata.Proofs.DFA.Calls
import FiniteAutomata.Proofs.NFA.Determinized

set_option autoImplicit false

/-!
The automaton that the subset construction assembles is one that calls make. None of them is refused: no symbol
of the alphabet is the marker of silent steps, and each move leads from one set that was found to another.
-/

namespace FiniteAutomata

theorem apart_map_text {names : List String} (distinct : names.Nodup) : Apart (names.map Label.text) :=
  List.pairwise_map.mpr (distinct.imp fun different => by simpa using different)

namespace NFA

variable {nfa : NFA} {naming : Naming} {first : List State} {found : List Composite}

theorem apart_alphabet_perform {changed : NFA} {command : Command} (apart : Apart nfa.alphabet)
    (success : nfa.perform command = .ok changed) : Apart changed.alphabet := by
  cases effect_of_perform success with
  | setStart | addState | addFinal => exact apart
  | addSymbol symbol real => exact apart_addNew apart symbol
  | addTransition source label target =>
      show Apart (if label == nfa.epsilon then nfa.alphabet else addNew nfa.alphabet label)
      split
      · exact apart
      · exact apart_addNew apart label

theorem apart_alphabet_replay {epsilon : Label} {symbols : List Label} {fresh : NFA}
    (created : create epsilon symbols .empty = .ok fresh) (commands : List Command) :
    Apart (fresh.replay commands).alphabet := by
  rw [← replay_eq_of_performAll (performAll_of_create created), ← replay_append]
  have none : Apart (empty epsilon .empty).alphabet := List.Pairwise.nil
  exact replay_induction (P := fun reached _ => Apart reached.alphabet) none _
    fun _ _ _ _ _ earlier success => apart_alphabet_perform earlier success

theorem keys_assemble (naming : Naming) (first : List State) (found : List Composite) :
    (nfa.assemble naming first found).states.keys = (found.map Composite.name).map Label.text := by
  simp [assemble, Table.keys]

theorem hasState_assemble {composite : Composite} (present : composite ∈ found) :
    (nfa.assemble naming first found).hasState (.text composite.name) = true := by
  rw [DFA.hasState_iff, keys_assemble]
  exact ⟨_, List.mem_map_of_mem (List.mem_map_of_mem present), BEq.rfl⟩

theorem members_assemble_iff (covers : nfa.Covers naming first found) (state : Label) (members : List Label) :
    (nfa.assemble naming first found).members state = .ok members ↔
      ∃ composite ∈ found, state = .text composite.name ∧ members = composite.members.map .text := by
  constructor
  · intro known
    have present : (nfa.assemble naming first found).hasState state = true := by
      rw [DFA.hasState_iff_exists_node]
      cases entry : (nfa.assemble naming first found).states.get? state with
      | none => simp [DFA.members, entry] at known
      | some node => exact ⟨node, rfl⟩
    obtain ⟨_, key, same⟩ := (DFA.hasState_iff ..).mp present
    rw [keys_assemble, List.map_map] at key
    obtain ⟨composite, here, rfl⟩ := List.mem_map.mp key
    obtain rfl := (Label.text_beq_iff ..).mp same
    exact ⟨composite, here, rfl, Except.ok.inj (known.symm.trans (members_assemble covers here))⟩
  · rintro ⟨composite, here, rfl, rfl⟩
    exact members_assemble covers here

/-- The moves that some of the symbols make from a set. -/
def movesOn (nfa : NFA) (naming : Naming) (symbols : List Label) (composite : Composite) : Table Label Label :=
  ⟨symbols.filterMap fun symbol =>
    (nfa.successor? naming composite.states symbol).map fun target => (symbol, .text target.name)⟩

theorem keys_movesOn (symbols : List Label) (composite : Composite) : (nfa.movesOn naming symbols composite).keys =
    symbols.filter fun symbol => (nfa.successor? naming composite.states symbol).isSome := by
  induction symbols with
  | nil => rfl
  | cons symbol rest ih =>
      simp only [movesOn, Table.keys] at ih ⊢
      cases leads : nfa.successor? naming composite.states symbol <;> simp [leads, ih]

theorem apart_keys_nodeOf (alphabet : Apart nfa.alphabet) (composite : Composite) :
    Apart (nfa.nodeOf naming composite).moves.keys := by
  have moves : (nfa.nodeOf naming composite).moves = nfa.movesOn naming nfa.alphabet composite := rfl
  rw [moves, keys_movesOn]
  exact alphabet.sublist List.filter_sublist

theorem fits_nodeOf (regular : nfa.Regular) (alphabet : Apart nfa.alphabet)
    (covers : nfa.Covers naming first found) {composite : Composite} (present : composite ∈ found) :
    (nfa.assemble naming first found).Fits (nfa.nodeOf naming composite) where
  members := by
    rw [nodeOf, (covers.formed composite present).members]
    exact apart_map_text (nodup_canonical _)
  moves := apart_keys_nodeOf alphabet composite
  leads symbol target leads := by
    obtain ⟨letter, move, same⟩ :=
      (Table.exists_entry_iff (apart_keys_nodeOf alphabet composite) symbol target).mp leads
    obtain ⟨_, known, moved⟩ := List.mem_filterMap.mp move
    obtain ⟨next, follows, equal⟩ := Option.map_eq_some_iff.mp moved
    obtain ⟨rfl, rfl⟩ := Prod.mk.inj equal
    have successor : next ∈ (nfa.compositeSearch naming).successors composite :=
      List.mem_filterMap.mpr ⟨_, known, follows⟩
    obtain ⟨goal, goalFound, name, -⟩ := covers.closed composite present next successor
    refine ⟨(BEq.congr_left same).symm.trans (regular.real _ known), ?_, ?_⟩
    · exact List.contains_iff_exists_mem_beq.mpr ⟨_, known, BEq.symm same⟩
    · rw [← name]
      exact hasState_assemble goalFound

theorem regular_assemble (regular : nfa.Regular) (alphabet : Apart nfa.alphabet)
    (covers : nfa.Covers naming first found) (names : (found.map Composite.name).Nodup) :
    (nfa.assemble naming first found).Regular where
  states := by
    rw [keys_assemble]
    exact apart_map_text names
  nodes state node known := by
    obtain ⟨_, entry⟩ := Table.exists_entry_of_get? known
    obtain ⟨composite, present, equal⟩ := List.mem_map.mp entry
    obtain ⟨-, rfl⟩ := Prod.mk.inj equal
    exact fits_nodeOf regular alphabet covers present
  finals := by
    have sorted : ((found.filter fun composite => nfa.isFinal composite.states).map Composite.name).Nodup :=
      names.sublist (List.filter_sublist.map _)
    have texts := apart_map_text sorted
    rwa [List.map_map] at texts
  final state final := by
    obtain ⟨name, named, same⟩ := List.contains_iff_exists_mem_beq.mp final
    obtain ⟨composite, accepts, rfl⟩ := List.mem_map.mp named
    rw [DFA.hasState_congr same]
    exact hasState_assemble (List.mem_filter.mp accepts).1
  alphabet := alphabet
  real := regular.real

theorem regular_of_toDfa (regular : nfa.Regular) (alphabet : Apart nfa.alphabet) {dfa : DFA}
    (built : nfa.toDfa naming = .ok dfa) : dfa.Regular := by
  cases started : nfa.initial with
  | none =>
      rw [toDfa_of_unstarted started] at built
      simp at built
  | some start =>
      cases outcome : (nfa.composites naming (nfa.close [start])).refused with
      | some refused =>
          rw [toDfa_of_refused regular.sound started outcome] at built
          simp at built
      | none =>
          obtain ⟨made, covers⟩ := toDfa_of_unrefused regular.sound started outcome
          have names := nodup_names_found regular.sound naming (by simp : nfa.close [start] ≠ [])
          obtain rfl := Except.ok.inj (made.symm.trans built)
          exact regular_assemble regular alphabet covers names

theorem finals_assemble (covers : nfa.Covers naming first found) :
    (nfa.assemble naming first found).finals =
      (nfa.assemble naming first found).states.keys.filter (nfa.assemble naming first found).isFinal := by
  have agree : ∀ composite ∈ found, nfa.isFinal composite.states =
      (nfa.assemble naming first found).isFinal (.text composite.name) := fun composite present =>
    (isFinal_assemble covers present).symm
  calc (nfa.assemble naming first found).finals
      = (found.filter fun composite => nfa.isFinal composite.states).map fun composite =>
          Label.text composite.name := rfl
    _ = (found.filter fun composite =>
          (nfa.assemble naming first found).isFinal (.text composite.name)).map fun composite =>
          Label.text composite.name := by rw [List.filter_congr agree]
    _ = _ := by
        rw [keys_assemble, List.map_map, List.filter_map]
        rfl

theorem performAll_calls_assemble (regular : nfa.Regular) (alphabet : Apart nfa.alphabet)
    (covers : nfa.Covers naming first found) (names : (found.map Composite.name).Nodup) :
    (DFA.empty (nfa.assemble naming first found).initial nfa.epsilon).performAll
      (nfa.assemble naming first found).calls = .ok (nfa.assemble naming first found) :=
  (regular_assemble regular alphabet covers names).performAll_calls (finals_assemble covers)

end NFA

end FiniteAutomata
