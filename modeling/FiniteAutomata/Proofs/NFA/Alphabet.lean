import FiniteAutomata.Proofs.DFA.Numbering
import FiniteAutomata.Proofs.NFA.Assembled

set_option autoImplicit false

/-!
The alphabet of an automaton after any run of calls: the symbols that were declared, among them every label that a
state has an edge on, whether or not the state still goes by its name. The marker of silent steps is never one of
them. The deterministic automaton and its numbered copies have the same alphabet.
-/

namespace FiniteAutomata

theorem Graph.exists_edge_of_mem_labels {graph : Graph} {state : State} {label : Label}
    (present : label ∈ graph.labels state) : ∃ edge ∈ graph.edges, edge.label = label := by
  have recorded := (mem_foldl_addNew present).resolve_left List.not_mem_nil
  obtain ⟨edge, here, named⟩ := List.mem_map.mp recorded
  exact ⟨edge, (List.mem_filter.mp here).1, named⟩

namespace NFA

/-- The call declares the symbol, alone or as the label of a transition. -/
def Command.Declares (symbol : Label) : Command → Prop
  | .addSymbol other => (symbol == other) = true
  | .addTransition _ label _ => (symbol == label) = true
  | .setStart _ | .addState _ | .addFinal _ => False

theorem contains_alphabet_perform {nfa changed : NFA} {command : Command}
    (success : nfa.perform command = .ok changed) {symbol : Label} (real : (symbol == nfa.epsilon) = false) :
    changed.alphabet.contains symbol = true ↔
      nfa.alphabet.contains symbol = true ∨ command.Declares symbol := by
  cases effect_of_perform success with
  | setStart | addState | addFinal => simp [Command.Declares]
  | addSymbol other => simp [Command.Declares, contains_addNew]
  | addTransition source label target =>
      by_cases silent : (label == nfa.epsilon) = true
      · have other : (symbol == label) = false := by rw [BEq.congr_right silent, real]
        simp [Command.Declares, silent, other]
      · simp [Command.Declares, silent, contains_addNew]

theorem contains_alphabet_replay {epsilon : Label} {symbols : List Label} {fresh : NFA}
    (created : create epsilon symbols .empty = .ok fresh) (commands : List Command) {symbol : Label}
    (real : (symbol == epsilon) = false) :
    (fresh.replay commands).alphabet.contains symbol = true ↔
      fresh.alphabet.contains symbol = true ∨ ∃ command ∈ fresh.performed commands, command.Declares symbol := by
  refine replay_induction (P := fun reached done => reached.alphabet.contains symbol = true ↔
    fresh.alphabet.contains symbol = true ∨ ∃ command ∈ done, command.Declares symbol) (by simp) commands ?_
  intro before command after changed split earlier success
  have apart : (symbol == (fresh.replay before).epsilon) = false := by rwa [epsilon_replay created]
  rw [contains_alphabet_perform success apart, earlier]
  simp [or_and_right, exists_or, or_assoc]

theorem contains_alphabet_create {epsilon : Label} {symbols : List Label} {fresh : NFA}
    (created : create epsilon symbols .empty = .ok fresh) {symbol : Label}
    (real : (symbol == epsilon) = false) :
    fresh.alphabet.contains symbol = true ↔ symbols.contains symbol = true := by
  have bare : create epsilon [] .empty = .ok (empty epsilon .empty) := rfl
  have success := performAll_of_create created
  have held := contains_alphabet_replay bare (symbols.map .addSymbol) real
  rw [replay_eq_of_performAll success, performed_of_performAll success] at held
  rw [held]
  simp [empty, Command.Declares, List.contains_iff_exists_mem_beq]

theorem Regular.contains_alphabet_marker {nfa : NFA} (regular : nfa.Regular) {symbol : Label}
    (marked : (symbol == nfa.epsilon) = true) : nfa.alphabet.contains symbol = false := by
  apply Bool.eq_false_iff.mpr
  intro held
  obtain ⟨letter, present, same⟩ := List.contains_iff_exists_mem_beq.mp held
  have silent := BEq.trans (BEq.symm same) marked
  simp [regular.real letter present] at silent

theorem Regular.alphabet_toDfa {nfa : NFA} (regular : nfa.Regular) (alphabet : Apart nfa.alphabet) {start : State}
    (started : nfa.initial = some start) (namer : Namer) :
    ∃ dfa, nfa.toDfa namer.name = .ok dfa ∧ dfa.alphabet = nfa.alphabet ∧
      (DFA.empty dfa.initial nfa.epsilon).performAll dfa.calls = .ok dfa ∧
      ∀ base, ∃ copy, dfa.renumber base = .ok copy ∧ copy.alphabet.Perm nfa.alphabet ∧
        (DFA.empty copy.initial nfa.epsilon).performAll copy.calls = .ok copy := by
  obtain ⟨built, covers⟩ := toDfa_namer regular.sound started namer
  have filled : nfa.close [start] ≠ [] := by simp
  have names : ((nfa.foundFrom namer.name start).map Composite.name).Nodup :=
    nodup_names_found regular.sound namer.name filled
  have made := regular_assemble regular alphabet covers names
  have known : (nfa.assemble namer.name (nfa.close [start]) (nfa.foundFrom namer.name start)).hasState
      (.text (Composite.ofStates namer.name (nfa.close [start])).name) = true :=
    hasState_assemble covers.seeded
  refine ⟨_, built, rfl, performAll_calls_assemble regular alphabet covers names, fun base => ?_⟩
  have numbering := made.numbering known base
  exact ⟨_, DFA.renumber_of_known known base, numbering.alphabet, numbering.made⟩

/-- After any run of calls the marker is not in the alphabet, and all labels of edges but the marker are. The
deterministic automaton and its numbered copies have the same alphabet. -/
theorem replay_alphabet {epsilon : Label} {symbols : List Label} {fresh : NFA}
    (created : create epsilon symbols .empty = .ok fresh) (commands : List Command) :
    (∀ symbol ∈ (fresh.replay commands).alphabet, (symbol == epsilon) = false) ∧
    (∀ state : State, ∀ label ∈ (fresh.replay commands).graph.labels state,
      (label == epsilon) = true ∨ (fresh.replay commands).alphabet.contains label = true) ∧
    (∀ symbol, (fresh.replay commands).alphabet.contains symbol = true ↔ (symbol == epsilon) = false ∧
      (symbols.contains symbol = true ∨ ∃ command ∈ fresh.performed commands, command.Declares symbol)) ∧
    ((fresh.replay commands).initial ≠ none → ∀ namer : Namer, ∃ dfa,
      (fresh.replay commands).toDfa namer.name = .ok dfa ∧
      dfa.alphabet = (fresh.replay commands).alphabet ∧
      (DFA.empty dfa.initial epsilon).performAll dfa.calls = .ok dfa ∧
      ∀ base, ∃ copy, dfa.renumber base = .ok copy ∧
        copy.alphabet.Perm (fresh.replay commands).alphabet ∧
        (DFA.empty copy.initial epsilon).performAll copy.calls = .ok copy) := by
  have marker := epsilon_replay created commands
  have regular := (regular_of_create created).replay commands
  have declared (symbol : Label) (real : (symbol == epsilon) = false) :
      (fresh.replay commands).alphabet.contains symbol = true ↔ symbols.contains symbol = true ∨
        ∃ command ∈ fresh.performed commands, command.Declares symbol := by
    rw [contains_alphabet_replay created commands real, contains_alphabet_create created real]
  have alphabet := apart_alphabet_replay created commands
  generalize fresh.replay commands = nfa at marker regular declared alphabet ⊢
  subst marker
  refine ⟨regular.real, fun state label present => ?_, fun symbol => ?_, fun started namer => ?_⟩
  · obtain ⟨edge, recorded, rfl⟩ := Graph.exists_edge_of_mem_labels present
    exact regular.lettered edge recorded
  · cases silent : symbol == nfa.epsilon with
    | true => simp [regular.contains_alphabet_marker silent]
    | false => simp [declared symbol silent]
  · obtain ⟨start, begun⟩ := Option.ne_none_iff_exists'.mp started
    exact regular.alphabet_toDfa alphabet begun namer

/-- An automaton with a number for its marker and a symbol that nothing uses. -/
def unusedSymbol : NFA := { empty (.int 1) .empty with alphabet := [.text "unused"] }

/-- A run with a start that is replaced, a state that is hidden, and labels that are equal but not the same. -/
def mixedLabels : List Command := [.setStart (.text "s"), .addState (.text "t"),
  .addTransition (.text "s") (.truth false) (.text "t"), .addTransition (.text "t") (.truth true) (.text "s"),
  .addSymbol (.int 1), .setStart (.text "s"), .addFinal (.text "t"), .addTransition (.text "t") (.int 0) (.text "s")]

theorem replay_alphabet_mixedLabels :
    create (.int 1) [.text "unused"] .empty = .ok unusedSymbol ∧
      (unusedSymbol.replay mixedLabels).alphabet = [.text "unused", .truth false] ∧
      (unusedSymbol.replay mixedLabels).initial ≠ none ∧
      (unusedSymbol.replay mixedLabels).graph.labels ⟨0, "s", by decide⟩ = [.truth false] ∧
      (unusedSymbol.replay mixedLabels).graph.labels ⟨1, "t", by decide⟩ = [.truth true] ∧
      (unusedSymbol.replay mixedLabels).graph.labels ⟨3, "t", by decide⟩ = [.int 0] ∧
      (∀ state : State, ∀ label ∈ (unusedSymbol.replay mixedLabels).graph.labels state,
        (label == .int 1) = true ∨ (unusedSymbol.replay mixedLabels).alphabet.contains label = true) ∧
      ∃ dfa copy, (unusedSymbol.replay mixedLabels).toDfa Namer.standard.name = .ok dfa ∧
        dfa.alphabet = [.text "unused", .truth false] ∧ dfa.renumber 5 = .ok copy ∧
        copy.alphabet.Perm [.text "unused", .truth false] := by
  have created : create (.int 1) [.text "unused"] .empty = .ok unusedSymbol := rfl
  obtain ⟨-, lettered, -, copied⟩ := replay_alphabet created mixedLabels
  have started : (unusedSymbol.replay mixedLabels).initial ≠ none :=
    Option.ne_none_iff_exists'.mpr ⟨⟨2, "s", by decide⟩, rfl⟩
  obtain ⟨dfa, built, alphabet, -, renumbered⟩ := copied started Namer.standard
  obtain ⟨copy, made, same, -⟩ := renumbered 5
  exact ⟨created, rfl, started, rfl, rfl, rfl, lettered, dfa, copy, built, alphabet, made, same⟩

end NFA

end FiniteAutomata
