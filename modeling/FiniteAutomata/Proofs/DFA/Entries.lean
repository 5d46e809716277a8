import FiniteAutomata.Proofs.DFA.Runs

set_option autoImplicit false

/-!
The table of transitions, whose keys are pairs of a state and a symbol. No two of its keys are equal, and what it holds
under a pair is where the automaton moves.
-/

namespace FiniteAutomata

namespace DFA

def table (dfa : DFA) : Table (Label × Label) Label := ⟨dfa.transitionTable⟩

theorem keys_table (dfa : DFA) : dfa.table.keys =
    dfa.states.entries.flatMap fun entry => entry.2.moves.keys.map fun symbol => (entry.1, symbol) := by
  simp [table, transitionTable, Table.keys, List.map_flatMap, Function.comp_def]

theorem mem_transitionTable_iff (dfa : DFA) (source symbol target : Label) :
    ((source, symbol), target) ∈ dfa.transitionTable ↔
      ∃ node, (source, node) ∈ dfa.states.entries ∧ (symbol, target) ∈ node.moves.entries := by
  simp only [transitionTable, List.mem_flatMap, List.mem_map, Prod.mk.injEq, Prod.exists]
  constructor
  · rintro ⟨_, node, known, _, _, moves, ⟨rfl, rfl⟩, rfl⟩
    exact ⟨node, known, moves⟩
  · rintro ⟨node, known, moves⟩
    exact ⟨source, node, known, symbol, target, moves, ⟨rfl, rfl⟩, rfl⟩

namespace Regular

variable {dfa : DFA} (regular : dfa.Regular)
include regular

theorem apart_table : Apart dfa.table.keys := by
  rw [keys_table]
  refine apart_flatMap _ regular.states (fun entry present => ?_) fun first second pair here other there same => ?_
  · have fits := regular.nodes entry.1 entry.2 (Table.get?_of_mem regular.states present BEq.rfl)
    exact apart_map fits.moves fun symbol label same => ((prod_beq_iff ..).mp same).2
  · obtain ⟨symbol, -, rfl⟩ := List.mem_map.mp here
    obtain ⟨label, -, rfl⟩ := List.mem_map.mp there
    exact ((prod_beq_iff ..).mp same).1

theorem get?_table (source symbol : Label) : dfa.table.get? (source, symbol) = dfa.target? source symbol := by
  apply Option.ext
  intro target
  rw [Table.exists_entry_iff regular.apart_table, target?_eq_some_iff]
  constructor
  · rintro ⟨⟨origin, label⟩, present, same⟩
    obtain ⟨node, known, leads⟩ := (mem_transitionTable_iff ..).mp present
    obtain ⟨begins, reads⟩ := (prod_beq_iff ..).mp same
    have fits := regular.nodes origin node (Table.get?_of_mem regular.states known BEq.rfl)
    exact ⟨node, Table.get?_of_mem regular.states known begins, Table.get?_of_mem fits.moves leads reads⟩
  · rintro ⟨node, known, leads⟩
    have fits := regular.nodes source node known
    obtain ⟨origin, present, begins⟩ := (Table.exists_entry_iff regular.states source node).mp known
    obtain ⟨label, listed, reads⟩ := (Table.exists_entry_iff fits.moves symbol target).mp leads
    exact ⟨(origin, label), (mem_transitionTable_iff ..).mpr ⟨node, present, listed⟩,
      (prod_beq_iff ..).mpr ⟨begins, reads⟩⟩

theorem target?_of_entry {source symbol target : Label}
    (entry : ((source, symbol), target) ∈ dfa.transitionTable) : dfa.target? source symbol = some target := by
  rw [← regular.get?_table]
  exact Table.get?_of_mem regular.apart_table entry BEq.rfl

end Regular

end DFA

end FiniteAutomata
