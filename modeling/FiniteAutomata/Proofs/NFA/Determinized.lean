import FiniteAutomata.Proofs.DFA.Following
import FiniteAutomata.Proofs.NFA.Subsets

set_option autoImplicit false

/-!
The automaton that the subset construction assembles: where its moves lead, which of its states are final, and
by which words its states are reached.
-/

namespace FiniteAutomata

namespace NFA

/-- The sets that were found by a construction that came to its end. -/
structure Covers (nfa : NFA) (naming : Naming) (first : List State) (found : List Composite) : Prop where
  formed : ∀ composite ∈ found, composite.Formed naming
  distinct : ∀ left ∈ found, ∀ right ∈ found, left.name = right.name → left = right
  seeded : .ofStates naming first ∈ found
  reached : ∀ composite ∈ found,
    (nfa.compositeSearch naming).Reaches [.ofStates naming first] (· ∈ found) composite
  closed : ∀ composite ∈ found, ∀ next ∈ (nfa.compositeSearch naming).successors composite,
    ∃ known ∈ found, known.name = next.name ∧ known.members = next.members

variable {nfa : NFA} {naming : Naming} {first : List State} {found : List Composite}

theorem covers_composites (sound : nfa.graph.Sound) (filled : first ≠ [])
    (unrefused : (nfa.composites naming first).refused = none) :
    nfa.Covers naming first (nfa.composites naming first).found := by
  have explored := explored_composites sound naming filled
  have met (composite : Composite) :
      composite ∈ (nfa.composites naming first).found ↔ composite ∈ (nfa.composites naming first).met :=
    List.mem_reverse
  have settled {next : Composite}
      (known : (nfa.compositeSearch naming).Settled (nfa.composites naming first).met next) :
      ∃ known ∈ (nfa.composites naming first).found,
        known.name = next.name ∧ known.members = next.members := by
    obtain ⟨known, present, same, rfl | admitted⟩ := known
    · exact ⟨known, (met known).mpr present, rfl, rfl⟩
    · have members : next.fault = none ∧ known.members = next.members := by
        simpa [compositeSearch] using admitted
      exact ⟨known, (met known).mpr present, by simpa using same, members.2⟩
  refine ⟨?_, ?_, ?_, ?_, ?_⟩
  · intro composite present
    exact (exists_word_of_reaches sound naming filled (explored.reached composite ((met _).mp present))).1
  · intro left leftPresent right rightPresent same
    exact explored.distinct.eq ((met left).mp leftPresent) ((met right).mp rightPresent) (by simpa using same)
  · exact (met _).mpr (List.mem_of_getLast? (explored.first unrefused))
  · intro composite present
    exact (explored.reached composite ((met _).mp present)).mono fun other => (met other).mpr
  · intro composite present next follows
    exact settled (explored.closed unrefused composite ((met _).mp present) next follows)

/-- The sets that the construction finds from the start. -/
def foundFrom (nfa : NFA) (naming : Naming) (start : State) : List Composite :=
  (nfa.composites naming (nfa.close [start])).found

theorem toDfa_of_unrefused (sound : nfa.graph.Sound) {start : State} (started : nfa.initial = some start)
    (unrefused : (nfa.composites naming (nfa.close [start])).refused = none) :
    nfa.toDfa naming = .ok (nfa.assemble naming (nfa.close [start]) (nfa.foundFrom naming start)) ∧
      nfa.Covers naming (nfa.close [start]) (nfa.foundFrom naming start) := by
  have filled : nfa.close [start] ≠ [] := by simp
  refine ⟨?_, covers_composites sound filled unrefused⟩
  simp only [toDfa, start_of_sound sound started, bind, Except.bind, conclude, unrefused, foundFrom]

theorem toDfa_of_unstarted (unstarted : nfa.initial = none) (naming : Naming) :
    nfa.toDfa naming = .error .noStart := by
  simp [toDfa, NFA.start, unstarted, bind, Except.bind]

theorem toDfa_of_refused (sound : nfa.graph.Sound) {start : State} (started : nfa.initial = some start)
    {refused : Composite} (stop : (nfa.composites naming (nfa.close [start])).refused = some refused) :
    nfa.toDfa naming = .error (.sharedName refused.name) := by
  have filled : nfa.close [start] ≠ [] := by simp
  obtain ⟨-, -, -, -, possible⟩ := refused_composites sound naming filled stop
  have fault := (exists_word_of_reaches sound naming filled possible).1.fault
  simp [toDfa, start_of_sound sound started, bind, Except.bind, conclude, stop, fault]

theorem toDfa_namer (sound : nfa.graph.Sound) {start : State} (started : nfa.initial = some start)
    (namer : Namer) :
    nfa.toDfa namer.name = .ok (nfa.assemble namer.name (nfa.close [start]) (nfa.foundFrom namer.name start)) ∧
      nfa.Covers namer.name (nfa.close [start]) (nfa.foundFrom namer.name start) :=
  toDfa_of_unrefused sound started (unrefused_composites sound namer (by simp))

theorem move_congr (states : List State) {label symbol : Label} (same : (label == symbol) = true) :
    nfa.move states label = nfa.move states symbol := by
  simp only [move, nfa.graph.targets_congr rfl same]

theorem move_of_unlettered (regular : nfa.Regular) (states : List State) {symbol : Label}
    (real : (symbol == nfa.epsilon) = false) (foreign : nfa.alphabet.contains symbol = false) :
    nfa.move states symbol = [] := by
  apply List.eq_nil_iff_forall_not_mem.mpr
  intro target present
  obtain ⟨source, -, leads⟩ := leads_of_mem_move present
  obtain ⟨edge, recorded, ⟨-, same⟩, -⟩ := (Graph.mem_targets ..).mp leads
  rcases regular.lettered edge recorded with silent | known
  · have marked := BEq.trans (BEq.symm same) silent
    simp [marked] at real
  · obtain ⟨letter, here, equal⟩ := List.contains_iff_exists_mem_beq.mp known
    have contained : nfa.alphabet.contains symbol = true :=
      List.contains_iff_exists_mem_beq.mpr ⟨letter, here, BEq.trans (BEq.symm same) equal⟩
    simp [contained] at foreign

theorem exists_letter (regular : nfa.Regular) {states : List State} {symbol : Label}
    (real : (symbol == nfa.epsilon) = false) (filled : nfa.close (nfa.move states symbol) ≠ []) :
    ∃ letter ∈ nfa.alphabet, nfa.move states letter = nfa.move states symbol := by
  -- a symbol that leads somewhere leads there in the form that the alphabet has it in
  have lettered : nfa.alphabet.contains symbol = true := by
    by_contra foreign
    have unmoved := move_of_unlettered regular states real (by simpa using foreign)
    simp [unmoved] at filled
  obtain ⟨letter, here, same⟩ := List.contains_iff_exists_mem_beq.mp lettered
  exact ⟨letter, here, move_congr _ (BEq.symm same)⟩

theorem node_assemble (covers : nfa.Covers naming first found) {composite : Composite}
    (present : composite ∈ found) :
    (nfa.assemble naming first found).states.get? (.text composite.name) =
      some (nfa.nodeOf naming composite) := by
  apply Table.get?_map (fun other : Composite => Label.text other.name) _ present
  intro other otherPresent same
  apply covers.distinct other otherPresent composite present
  simpa using same

section Moves

variable (regular : nfa.Regular) (covers : nfa.Covers naming first found)
include regular covers

theorem target?_assemble {composite : Composite} (present : composite ∈ found) {symbol : Label}
    (real : (symbol == nfa.epsilon) = false) :
    (nfa.assemble naming first found).target? (.text composite.name) symbol =
      (nfa.successor? naming composite.states symbol).map fun next => .text next.name := by
  have node := node_assemble covers present
  have agree : ∀ letter, (letter == symbol) = true →
      ((nfa.successor? naming composite.states letter).map fun next => Label.text next.name) =
        (nfa.successor? naming composite.states symbol).map fun next => .text next.name := by
    intro letter same
    simp only [successor?, step_of_sound regular.sound, move_congr _ same]
  have found := Table.get?_filterMap nfa.alphabet
    (fun letter => (nfa.successor? naming composite.states letter).map fun next => Label.text next.name) agree
  simp only [Option.map_map, Function.comp_def] at found
  simp only [DFA.target?, DFA.moves, node, Option.elim_some, nodeOf]
  rw [found]
  by_cases known : nfa.alphabet.contains symbol = true
  · rw [if_pos known]
  · have unmoved := move_of_unlettered regular composite.states real (by simpa using known)
    have missing : nfa.successor? naming composite.states symbol = none := by
      simp [successor?_eq_none_iff regular.sound, unmoved]
    rw [if_neg known, missing, Option.map_none]

theorem target?_eq_none_iff {composite : Composite} (present : composite ∈ found) {symbol : Label}
    (real : (symbol == nfa.epsilon) = false) :
    (nfa.assemble naming first found).target? (.text composite.name) symbol = none ↔
      nfa.close (nfa.move composite.states symbol) = [] := by
  rw [target?_assemble regular covers present real, Option.map_eq_none_iff]
  exact successor?_eq_none_iff regular.sound ..

theorem exists_target {composite : Composite} (present : composite ∈ found) {symbol : Label}
    (real : (symbol == nfa.epsilon) = false) (filled : nfa.close (nfa.move composite.states symbol) ≠ []) :
    ∃ known ∈ found,
      (nfa.assemble naming first found).target? (.text composite.name) symbol = some (.text known.name) ∧
      known.members = canonical ((nfa.close (nfa.move composite.states symbol)).map State.name) := by
  -- a move leads to a set that was found, with the members of the one that the symbol leads to
  obtain ⟨letter, here, moved⟩ := exists_letter regular real filled
  have follows : .ofStates naming (nfa.close (nfa.move composite.states symbol)) ∈
      (nfa.compositeSearch naming).successors composite := by
    rw [mem_successors_iff regular.sound]
    exact ⟨letter, here, by rw [moved]; exact ⟨filled, rfl⟩⟩
  obtain ⟨known, knownPresent, name, members⟩ := covers.closed composite present _ follows
  have step := (successor?_eq_some_iff regular.sound naming composite.states symbol _).mpr ⟨filled, rfl⟩
  refine ⟨known, knownPresent, ?_, members⟩
  rw [target?_assemble regular covers present real, step, Option.map_some, name]

theorem exists_word_of_found {composite : Composite} (present : composite ∈ found) :
    ∃ word, (∀ symbol ∈ word, symbol ∈ nfa.alphabet) ∧ nfa.follow first word = composite.states ∧
      (nfa.assemble naming first found).follow (nfa.assemble naming first found).initial word =
        some (.text composite.name) := by
  -- each set that was found is reached along a word whose states it holds
  have reached := covers.reached composite present
  clear present
  induction reached with
  | seed given =>
      obtain rfl := List.mem_singleton.mp given
      exact ⟨[], by simp, rfl, rfl⟩
  | @step before next earlier follows _ ih =>
      have here : before ∈ found := by cases earlier <;> assumption
      obtain ⟨word, letters, leads, path⟩ := ih
      obtain ⟨symbol, known, filled, rfl⟩ := (mem_successors_iff regular.sound ..).mp follows
      have real := regular.real symbol known
      have move := (successor?_eq_some_iff regular.sound naming before.states symbol _).mpr ⟨filled, rfl⟩
      refine ⟨word ++ [symbol], ?_, ?_, ?_⟩
      · exact List.forall_mem_append.mpr ⟨letters, List.forall_mem_singleton.mpr known⟩
      · rw [follow_append, leads]
        rfl
      · rw [DFA.follow_append, path, Option.bind_some, DFA.follow_cons,
          target?_assemble regular covers here real, move]
        rfl

end Moves

theorem solid_assemble (found : List Composite) : (nfa.assemble naming first found).Solid := by
  intro state symbol target leads
  simp only [DFA.target?, DFA.moves] at leads
  cases known : (nfa.assemble naming first found).states.get? state with
  | none => simp [known] at leads
  | some node =>
      obtain ⟨_, entry⟩ := Table.exists_entry_of_get? known
      obtain ⟨composite, -, equal⟩ := List.mem_map.mp entry
      obtain ⟨-, rfl⟩ := Prod.mk.inj equal
      simp only [known, Option.elim_some] at leads
      obtain ⟨_, move⟩ := Table.exists_entry_of_get? leads
      obtain ⟨letter, -, moved⟩ := List.mem_filterMap.mp move
      obtain ⟨next, -, equal⟩ := Option.map_eq_some_iff.mp moved
      obtain ⟨-, rfl⟩ := Prod.mk.inj equal
      rfl

theorem isFinal_assemble_iff (state : Label) : (nfa.assemble naming first found).isFinal state = true ↔
    ∃ composite ∈ found, state = .text composite.name ∧ nfa.isFinal composite.states = true := by
  simp only [DFA.isFinal, List.contains_iff_exists_mem_beq, assemble, List.mem_map, List.mem_filter]
  constructor
  · rintro ⟨_, ⟨composite, ⟨present, accepts⟩, rfl⟩, same⟩
    exact ⟨composite, present, (Label.text_beq_iff ..).mp (BEq.symm same), accepts⟩
  · rintro ⟨composite, present, rfl, accepts⟩
    exact ⟨_, ⟨composite, ⟨present, accepts⟩, rfl⟩, BEq.rfl⟩

theorem isFinal_assemble (covers : nfa.Covers naming first found) {composite : Composite}
    (present : composite ∈ found) :
    (nfa.assemble naming first found).isFinal (.text composite.name) = nfa.isFinal composite.states := by
  rw [Bool.eq_iff_iff, isFinal_assemble_iff]
  constructor
  · rintro ⟨other, otherPresent, same, accepts⟩
    rwa [covers.distinct composite present other otherPresent (Label.text.inj same)]
  · intro accepts
    exact ⟨composite, present, rfl, accepts⟩

theorem isFinal_null (found : List Composite) : (nfa.assemble naming first found).isFinal .null = false := by
  rw [Bool.eq_false_iff, Ne, isFinal_assemble_iff]
  rintro ⟨_, _, same, _⟩
  simp at same

theorem members_assemble (covers : nfa.Covers naming first found) {composite : Composite}
    (present : composite ∈ found) :
    (nfa.assemble naming first found).members (.text composite.name) = .ok (composite.members.map .text) := by
  rw [DFA.members, node_assemble covers present]
  rfl

end NFA

end FiniteAutomata
