import FiniteAutomata.NFA.Subset
import FiniteAutomata.Proofs.NFA.Following
import FiniteAutomata.Proofs.Namer.Injective
import Mathlib.Data.Finset.Powerset

set_option autoImplicit false

/-!
The sets of states that the subset construction meets. Each holds the states that some word over the alphabet
leads to. They are told apart by their names, so that there are no more of them than sets of names.
-/

namespace FiniteAutomata

namespace Composite

@[simp] theorem beq_eq (left right : Composite) : (left == right) = (left.name == right.name) := rfl

instance : EquivBEq Composite where
  rfl := by simp
  symm same := by simp_all
  trans first second := by simp_all

/-- The members and the name are those of the states, of which there are some. -/
structure Formed (naming : Naming) (composite : Composite) : Prop where
  members : composite.members = canonical (composite.states.map State.name)
  name : composite.name = naming composite.members
  fault : composite.fault = none
  filled : composite.states ≠ []

variable {naming : Naming} {left right composite : Composite}

theorem formed_ofStates {states : List State} (filled : states ≠ []) :
    (ofStates naming states).Formed naming :=
  ⟨rfl, rfl, rfl, filled⟩

theorem Formed.mem_members (formed : composite.Formed naming) (name : String) :
    name ∈ composite.members ↔ ∃ state ∈ composite.states, state.name = name := by
  rw [formed.members, mem_canonical, List.mem_map]

theorem Formed.members_eq_iff (leftFormed : left.Formed naming) (rightFormed : right.Formed naming) :
    left.members = right.members ↔ left.members.toFinset = right.members.toFinset := by
  rw [leftFormed.members, rightFormed.members, canonical_eq_iff, Finset.ext_iff]
  simp only [List.mem_toFinset, mem_canonical]

theorem Formed.members_ne_nil (formed : composite.Formed naming) : composite.members ≠ [] := by
  obtain ⟨state, present⟩ := List.exists_mem_of_ne_nil _ formed.filled
  exact List.ne_nil_of_mem ((formed.mem_members state.name).mpr ⟨state, present, rfl⟩)

theorem Formed.canonical_members (formed : composite.Formed naming) :
    canonical composite.members = composite.members := by
  rw [formed.members, canonical_eq_iff]
  exact fun name => mem_canonical ..

theorem Formed.name_eq {namer : Namer} {states : List State} (formed : composite.Formed namer.name)
    (same : ∀ state, state ∈ composite.states ↔ state ∈ states) :
    composite.name = namer.name (states.map State.name) := by
  -- the name is the one that a namer gives to any list of the same states
  rw [formed.name]
  refine namer.name_congr fun name => ?_
  rw [formed.mem_members, List.mem_map]
  simp only [same]

theorem Formed.members_eq {namer : Namer} (leftFormed : left.Formed namer.name)
    (rightFormed : right.Formed namer.name) (same : left.name = right.name) :
    left.members = right.members := by
  -- a namer gives one name to two sets only if they have the same members
  rw [leftFormed.name, rightFormed.name, namer.name_eq_iff_canonical] at same
  rw [leftFormed.canonical_members, rightFormed.canonical_members] at same
  rcases same with equal | ⟨none, -⟩ | ⟨-, none⟩
  · exact equal
  · exact absurd none leftFormed.members_ne_nil
  · exact absurd none rightFormed.members_ne_nil

theorem length_le_card {items : List Composite} (formed : ∀ item ∈ items, item.Formed naming)
    (distinct : Search.Distinct items) (sets : Finset (Finset String))
    (within : ∀ item ∈ items, item.members.toFinset ∈ sets) : items.length ≤ sets.card := by
  -- sets that are told apart by name are told apart by their members
  have apart : (items.map fun item => item.members.toFinset).Nodup := by
    refine List.pairwise_map.mpr (distinct.imp_of_mem fun leftPresent rightPresent different => ?_)
    intro same
    have equal := ((formed _ leftPresent).members_eq_iff (formed _ rightPresent)).mpr same
    rw [beq_eq, (formed _ leftPresent).name, (formed _ rightPresent).name, equal] at different
    simp at different
  have inside : (items.map fun item => item.members.toFinset).toFinset ⊆ sets := by
    intro names present
    simp only [List.mem_toFinset, List.mem_map] at present
    obtain ⟨item, here, rfl⟩ := present
    exact within item here
  have bound := Finset.card_le_card inside
  rwa [List.toFinset_card_of_nodup apart, List.length_map] at bound

end Composite

namespace NFA

variable {nfa : NFA} (sound : nfa.graph.Sound) (naming : Naming)

section Successors

include sound

theorem successor?_eq_some_iff (states : List State) (symbol : Label) (next : Composite) :
    nfa.successor? naming states symbol = some next ↔
      nfa.close (nfa.move states symbol) ≠ [] ∧
        .ofStates naming (nfa.close (nfa.move states symbol)) = next := by
  rw [successor?, step_of_sound sound]
  cases nfa.close (nfa.move states symbol) <;> simp

theorem successor?_eq_none_iff (states : List State) (symbol : Label) :
    nfa.successor? naming states symbol = none ↔ nfa.close (nfa.move states symbol) = [] := by
  rw [successor?, step_of_sound sound]
  cases nfa.close (nfa.move states symbol) <;> simp

theorem mem_successors_iff (composite next : Composite) :
    next ∈ (nfa.compositeSearch naming).successors composite ↔ ∃ symbol ∈ nfa.alphabet,
      nfa.close (nfa.move composite.states symbol) ≠ [] ∧
        .ofStates naming (nfa.close (nfa.move composite.states symbol)) = next := by
  simp only [compositeSearch, List.mem_filterMap, successor?_eq_some_iff sound]

theorem exists_word_of_reaches {first : List State} (filled : first ≠ []) {inside : Composite → Prop}
    {composite : Composite}
    (reached : (nfa.compositeSearch naming).Reaches [.ofStates naming first] inside composite) :
    composite.Formed naming ∧
      ∃ word, (∀ symbol ∈ word, symbol ∈ nfa.alphabet) ∧ nfa.follow first word = composite.states := by
  -- what the construction can come to are the sets after the words over the alphabet
  induction reached with
  | seed given =>
      obtain rfl := List.mem_singleton.mp given
      exact ⟨Composite.formed_ofStates filled, [], by simp, rfl⟩
  | step _ follows _ ih =>
      obtain ⟨-, word, letters, leads⟩ := ih
      obtain ⟨symbol, known, some, rfl⟩ := (mem_successors_iff sound ..).mp follows
      refine ⟨Composite.formed_ofStates some, word ++ [symbol], ?_, ?_⟩
      · exact List.forall_mem_append.mpr ⟨letters, List.forall_mem_singleton.mpr known⟩
      · rw [follow_append, leads]
        rfl

end Successors

section Bound

def linkedNames (nfa : NFA) : Finset String :=
  -- the names of the states that edges lead to
  ((nfa.graph.edges.filterMap Edge.state?).map State.name).toFinset

theorem mem_linkedNames_of_leads {source target : State} {label : Label}
    (leads : nfa.Leads source label target) : target.name ∈ nfa.linkedNames := by
  obtain ⟨edge, recorded, -, here⟩ := (Graph.mem_targets ..).mp leads
  have linked : target ∈ nfa.graph.edges.filterMap Edge.state? :=
    List.mem_filterMap.mpr ⟨edge, recorded, here⟩
  rw [linkedNames, List.mem_toFinset]
  exact List.mem_map_of_mem linked

theorem card_linkedNames (nfa : NFA) : nfa.linkedNames.card ≤ nfa.graph.edges.length := by
  calc nfa.linkedNames.card ≤ ((nfa.graph.edges.filterMap Edge.state?).map State.name).length :=
        List.toFinset_card_le _
    _ ≤ nfa.graph.edges.length := by
        rw [List.length_map]
        exact List.length_filterMap_le ..

theorem mem_linkedNames_of_path {origin state : State} {word : List Label}
    (path : Path nfa.Leads nfa.epsilon origin word state) (linked : origin.name ∈ nfa.linkedNames) :
    state.name ∈ nfa.linkedNames :=
  path.keeps (P := fun point => point.name ∈ nfa.linkedNames)
    (fun _ _ _ leads _ => mem_linkedNames_of_leads leads) linked

include sound

theorem bounded_composites {first : List State} (filled : first ≠ []) :
    (nfa.compositeSearch naming).Bounded [.ofStates naming first]
      (Nat.pow 2 (nfa.graph.edges.length + 1)) := by
  -- there are no more sets than the fuel of the construction allows for
  intro items reached distinct
  have formed : ∀ item ∈ items, item.Formed naming := fun item present =>
    (exists_word_of_reaches sound naming filled (reached item present)).1
  have within : ∀ item ∈ items, item.members.toFinset ∈
      insert (Composite.ofStates naming first).members.toFinset nfa.linkedNames.powerset := by
    intro item present
    cases reached item present with
    | seed given =>
        rw [List.mem_singleton.mp given]
        exact Finset.mem_insert_self ..
    | step _ follows =>
        -- all but the first set hold states that edges lead to
        obtain ⟨symbol, -, -, rfl⟩ := (mem_successors_iff sound ..).mp follows
        apply Finset.mem_insert_of_mem
        rw [Finset.mem_powerset]
        intro name here
        obtain ⟨state, closed, rfl⟩ := ((formed _ present).mem_members name).mp (List.mem_toFinset.mp here)
        obtain ⟨origin, moved, path⟩ := path_of_mem_close closed
        obtain ⟨source, -, leads⟩ := leads_of_mem_move moved
        exact mem_linkedNames_of_path path (mem_linkedNames_of_leads leads)
  have few : 2 ^ nfa.linkedNames.card ≤ 2 ^ nfa.graph.edges.length :=
    Nat.pow_le_pow_right (by decide) nfa.card_linkedNames
  have some : 1 ≤ 2 ^ nfa.graph.edges.length := Nat.one_le_two_pow
  calc items.length
      ≤ (insert (Composite.ofStates naming first).members.toFinset nfa.linkedNames.powerset).card :=
        Composite.length_le_card formed distinct _ within
    _ ≤ nfa.linkedNames.powerset.card + 1 := Finset.card_insert_le ..
    _ ≤ Nat.pow 2 (nfa.graph.edges.length + 1) := by
        rw [Finset.card_powerset, Nat.pow_eq, Nat.pow_succ]
        omega

theorem explored_composites {first : List State} (filled : first ≠ []) :
    (nfa.compositeSearch naming).Explored [.ofStates naming first] (nfa.composites naming first) :=
  Search.explored_run (bounded_composites sound naming filled)

theorem nodup_names_found {first : List State} (filled : first ≠ []) :
    ((nfa.composites naming first).found.map Composite.name).Nodup := by
  have distinct := (explored_composites sound naming filled).distinct
  refine List.pairwise_map.mpr (List.pairwise_reverse.mpr (distinct.imp fun different => ?_))
  simpa using different

theorem refused_composites {first : List State} (filled : first ≠ []) {refused : Composite}
    (stop : (nfa.composites naming first).refused = some refused) :
    ∃ known ∈ (nfa.composites naming first).met, known.name = refused.name ∧ known.members ≠ refused.members ∧
      (nfa.compositeSearch naming).Possible [.ofStates naming first] refused := by
  -- only two sets that share a name and differ in their members stop the construction
  obtain ⟨possible, halted | refusal⟩ := (explored_composites sound naming filled).stopped refused stop
  · exact absurd halted (by simp [compositeSearch])
  · have formed := (exists_word_of_reaches sound naming filled possible).1
    cases found : (nfa.composites naming first).met.find? (· == refused) with
    | none =>
        rw [found] at refusal
        simp [compositeSearch, formed.fault] at refusal
    | some known =>
        have same : known.name = refused.name := by simpa using List.find?_some found
        have differ : known.members ≠ refused.members := by
          rw [found] at refusal
          simpa [compositeSearch, formed.fault] using refusal
        exact ⟨known, List.mem_of_find?_eq_some found, same, differ, possible⟩

theorem unrefused_composites (namer : Namer) {first : List State} (filled : first ≠ []) :
    (nfa.composites namer.name first).refused = none := by
  cases stop : (nfa.composites namer.name first).refused with
  | none => rfl
  | some refused =>
      obtain ⟨known, met, same, differ, possible⟩ := refused_composites sound namer.name filled stop
      have reached := (explored_composites sound namer.name filled).reached known met
      have knownFormed := (exists_word_of_reaches sound namer.name filled reached).1
      have refusedFormed := (exists_word_of_reaches sound namer.name filled possible).1
      exact absurd (knownFormed.members_eq refusedFormed same) differ

end Bound

end NFA

end FiniteAutomata
