import FiniteAutomata.DFA.Renumbering
import FiniteAutomata.Proofs.DFA.Calls
import FiniteAutomata.Proofs.DFA.Isomorphism
import Mathlib.Data.List.Basic

set_option autoImplicit false

/-!
Copies of a deterministic automaton under other names. If the names are as distinct as the states, the change of
names is an isomorphism, and the copy is one that calls make.
-/

namespace FiniteAutomata

namespace DFA

/-- The order lists the states, each of them once, and the change tells them apart. -/
structure Relabels (dfa : DFA) (order : List Label) (change : Label → Label) : Prop where
  regular : dfa.Regular
  apart : Apart order
  covers : ∀ state, order.contains state = dfa.hasState state
  faithful : ∀ state other, dfa.hasState state = true → dfa.hasState other = true →
    (change state == change other) = (state == other)

variable {dfa : DFA} {order : List Label} {change : Label → Label}

namespace Relabels

variable (relabels : dfa.Relabels order change)
include relabels

theorem hasState_of_mem {state : Label} (present : state ∈ order) : dfa.hasState state = true := by
  rw [← relabels.covers, List.contains_iff_exists_mem_beq]
  exact ⟨state, present, BEq.rfl⟩

theorem exists_mem {state : Label} (known : dfa.hasState state = true) :
    ∃ listed ∈ order, (listed == state) = true := by
  rw [← relabels.covers, List.contains_iff_exists_mem_beq] at known
  obtain ⟨listed, present, same⟩ := known
  exact ⟨listed, present, BEq.symm same⟩

theorem keys : (dfa.relabel order change).states.keys = order.map change := by
  -- each name in the order is that of a state, so that none is dropped
  simp only [relabel, Table.keys, List.map_filterMap, Option.map_map]
  refine List.filterMap_eq_map_iff_forall_eq_some.mpr fun state present => ?_
  obtain ⟨node, found⟩ := (hasState_iff_exists_node ..).mp (relabels.hasState_of_mem present)
  simp [found]

theorem apart_keys : Apart (dfa.relabel order change).states.keys := by
  rw [relabels.keys]
  refine List.pairwise_map.mpr (relabels.apart.imp_of_mem fun {state other} here there different => ?_)
  rw [relabels.faithful _ _ (relabels.hasState_of_mem here) (relabels.hasState_of_mem there)]
  exact different

theorem hasState_iff_exists (goal : Label) : (dfa.relabel order change).hasState goal = true ↔
    ∃ state, dfa.hasState state = true ∧ (change state == goal) = true := by
  rw [hasState_iff, relabels.keys]
  constructor
  · rintro ⟨known, present, same⟩
    obtain ⟨state, listed, rfl⟩ := List.mem_map.mp present
    exact ⟨state, relabels.hasState_of_mem listed, same⟩
  · rintro ⟨state, known, same⟩
    obtain ⟨listed, present, equal⟩ := relabels.exists_mem known
    rw [← relabels.faithful _ _ (relabels.hasState_of_mem present) known] at equal
    exact ⟨change listed, List.mem_map_of_mem present, BEq.trans equal same⟩

theorem get? {state : Label} (known : dfa.hasState state = true) :
    (dfa.relabel order change).states.get? (change state) =
      (dfa.states.get? state).map (Node.rename change) := by
  obtain ⟨node, found⟩ := (hasState_iff_exists_node ..).mp known
  obtain ⟨listed, present, same⟩ := relabels.exists_mem known
  have entry : (change listed, Node.rename change node) ∈ (dfa.relabel order change).states.entries := by
    refine List.mem_filterMap.mpr ⟨listed, present, ?_⟩
    rw [dfa.states.get?_congr same, found]
    rfl
  rw [found]
  refine Table.get?_of_mem relabels.apart_keys entry ?_
  rw [relabels.faithful _ _ (relabels.hasState_of_mem present) known]
  exact same

theorem target? {state : Label} (known : dfa.hasState state = true) (symbol : Label) :
    (dfa.relabel order change).target? (change state) symbol = (dfa.target? state symbol).map change := by
  obtain ⟨node, found⟩ := (hasState_iff_exists_node ..).mp known
  simp only [DFA.target?, DFA.moves, relabels.get? known, found, Option.map_some, Option.elim_some]
  exact Table.get?_mapValues ..

theorem isFinal {state : Label} (known : dfa.hasState state = true) :
    (dfa.relabel order change).isFinal (change state) = dfa.isFinal state := by
  rw [Bool.eq_iff_iff, DFA.isFinal, List.contains_iff_exists_mem_beq]
  constructor
  · rintro ⟨goal, final, same⟩
    obtain ⟨listed, ends, rfl⟩ := List.mem_map.mp final
    obtain ⟨present, accepts⟩ := List.mem_filter.mp ends
    rw [relabels.faithful _ _ known (relabels.hasState_of_mem present)] at same
    rwa [dfa.isFinal_congr same]
  · intro final
    obtain ⟨listed, present, same⟩ := relabels.exists_mem known
    refine ⟨change listed, List.mem_map_of_mem (List.mem_filter.mpr ⟨present, ?_⟩), ?_⟩
    · rwa [dfa.isFinal_congr same]
    · rw [relabels.faithful _ _ known (relabels.hasState_of_mem present)]
      exact BEq.symm same

theorem isomorphicBy : dfa.IsomorphicBy (dfa.relabel order change) change where
  state state known := (relabels.hasState_iff_exists _).mpr ⟨state, known, BEq.rfl⟩
  faithful := relabels.faithful
  onto goal known := (relabels.hasState_iff_exists goal).mp known
  initial := BEq.rfl
  final _ known := relabels.isFinal known
  moves source symbol target begins ends := by
    rw [Moves, relabels.target? begins]
    constructor
    · rintro ⟨goal, leads, same⟩
      obtain ⟨found, moved, rfl⟩ := Option.map_eq_some_iff.mp leads
      rw [relabels.faithful _ _ (relabels.regular.target moved).2.2.2 ends] at same
      exact ⟨found, moved, same⟩
    · rintro ⟨found, moved, same⟩
      rw [← relabels.faithful _ _ (relabels.regular.target moved).2.2.2 ends] at same
      exact ⟨change found, by rw [moved]; rfl, same⟩

theorem fits {node : Node} (fits : dfa.Fits node) :
    (dfa.relabel order change).Fits (Node.rename change node) where
  members := fits.members
  moves := by
    have keys : (Node.rename change node).moves.keys = node.moves.keys := by
      simp [Node.rename, Table.keys, Function.comp_def]
    rw [keys]
    exact fits.moves
  leads symbol target leads := by
    have moved : (Node.rename change node).moves.get? symbol = (node.moves.get? symbol).map change :=
      Table.get?_mapValues ..
    rw [moved] at leads
    obtain ⟨found, here, rfl⟩ := Option.map_eq_some_iff.mp leads
    obtain ⟨real, lettered, known⟩ := fits.leads symbol found here
    refine ⟨real, ?_, relabels.isomorphicBy.state _ known⟩
    rw [← lettered]
    exact (sortOn_perm Label.plain dfa.alphabet).contains_eq

theorem regular_copy : (dfa.relabel order change).Regular where
  states := relabels.apart_keys
  nodes state node found := by
    obtain ⟨_, entry⟩ := Table.exists_entry_of_get? found
    obtain ⟨listed, -, made⟩ := List.mem_filterMap.mp entry
    obtain ⟨origin, known, equal⟩ := Option.map_eq_some_iff.mp made
    obtain ⟨-, rfl⟩ := Prod.mk.inj equal
    exact relabels.fits (relabels.regular.nodes listed origin known)
  finals := by
    have states := relabels.apart_keys
    rw [relabels.keys] at states
    exact states.sublist (List.filter_sublist.map change)
  final state final := by
    obtain ⟨goal, made, same⟩ := List.contains_iff_exists_mem_beq.mp final
    obtain ⟨listed, ends, rfl⟩ := List.mem_map.mp made
    rw [hasState_congr same]
    exact relabels.isomorphicBy.state _ (relabels.hasState_of_mem (List.mem_filter.mp ends).1)
  alphabet := relabels.regular.alphabet.of_perm (sortOn_perm Label.plain dfa.alphabet).symm
  real symbol present := relabels.regular.real symbol ((mem_sortOn ..).mp present)

theorem finals : (dfa.relabel order change).finals =
    (dfa.relabel order change).states.keys.filter (dfa.relabel order change).isFinal := by
  rw [relabels.keys, List.filter_map]
  refine congrArg (List.map change) (List.filter_congr fun state present => ?_)
  exact (relabels.isFinal (relabels.hasState_of_mem present)).symm

theorem performAll_calls : (empty (change dfa.initial) dfa.epsilon).performAll
    (dfa.relabel order change).calls = .ok (dfa.relabel order change) :=
  relabels.regular_copy.performAll_calls relabels.finals

theorem members {state : Label} (known : dfa.hasState state = true) :
    (dfa.relabel order change).members (change state) = dfa.members state := by
  obtain ⟨node, found⟩ := (hasState_iff_exists_node ..).mp known
  simp only [DFA.members, relabels.get? known, found, Option.map_some]
  rfl

end Relabels

end DFA

end FiniteAutomata
