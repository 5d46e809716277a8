import FiniteAutomata.Proofs.DFA.Runs

set_option autoImplicit false

/-!
The calls that make an automaton: its symbols are declared, then its states are added, and then its moves. From
the automaton without states they lead to the given one, and none of them is refused.
-/

namespace FiniteAutomata

namespace DFA

def performAll (dfa : DFA) (commands : List Command) : Except Error DFA :=
  commands.foldlM perform dfa

theorem performAll_append (dfa : DFA) (first second : List Command) :
    dfa.performAll (first ++ second) = dfa.performAll first >>= fun middle => middle.performAll second := by
  simp [performAll]

theorem performAll_cons {dfa changed : DFA} {command : Command} (success : dfa.perform command = .ok changed)
    (rest : List Command) : dfa.performAll (command :: rest) = changed.performAll rest := by
  simp [performAll, success, bind, Except.bind]

theorem performAll_of_ok {dfa middle : DFA} {first : List Command} (success : dfa.performAll first = .ok middle)
    (second : List Command) : dfa.performAll (first ++ second) = middle.performAll second := by
  simp [performAll_append, success, bind, Except.bind]

theorem replay_eq_of_performAll {dfa built : DFA} {commands : List Command}
    (success : dfa.performAll commands = .ok built) : dfa.replay commands = built := by
  induction commands generalizing dfa with
  | nil => exact Except.ok.inj success
  | cons command rest ih =>
      cases step : dfa.perform command with
      | error error => simp [performAll, step, bind, Except.bind] at success
      | ok changed =>
          rw [performAll_cons step] at success
          simpa [replay, attempt, step] using ih success

/-- The call that adds a state as final or not. -/
def stateCall (dfa : DFA) (entry : Label × Node) : Command :=
  if dfa.isFinal entry.1 then .addFinal entry.1 entry.2.members else .addState entry.1 entry.2.members

def moveCalls (entry : Label × Node) : List Command :=
  entry.2.moves.entries.map fun move => .addTransition entry.1 move.1 move.2

def calls (dfa : DFA) : List Command :=
  dfa.alphabet.map .addSymbol ++ dfa.states.entries.map dfa.stateCall ++ dfa.states.entries.flatMap moveCalls

/-- A state before its moves are added. -/
def bare (entry : Label × Node) : Label × Node :=
  (entry.1, ⟨entry.2.members, .empty⟩)

section Phases

variable {initial epsilon : Label} {alphabet finals : List Label}

theorem performAll_symbols {states : Table Label Node} {symbols known : List Label}
    (apart : Apart (known ++ symbols)) (real : ∀ symbol ∈ symbols, (symbol == epsilon) = false) :
    (⟨initial, epsilon, states, finals, known⟩ : DFA).performAll (symbols.map .addSymbol) =
      .ok ⟨initial, epsilon, states, finals, known ++ symbols⟩ := by
  induction symbols generalizing known with
  | nil => simp [performAll, pure, Except.pure]
  | cons symbol rest ih =>
      obtain ⟨here, later⟩ := List.forall_mem_cons.mp real
      have step : (⟨initial, epsilon, states, finals, known⟩ : DFA).perform (.addSymbol symbol) =
          .ok ⟨initial, epsilon, states, finals, known ++ [symbol]⟩ := by
        rw [← addNew_of_apart apart]
        exact (addSymbol_eq_ok_iff ..).mpr ⟨here, rfl⟩
      rw [List.map_cons, performAll_cons step, ih (by simpa using apart) later]
      simp

theorem performAll_states (whole : DFA) {entries known : List (Label × Node)}
    (apart : Apart ((known ++ entries).map Prod.fst)) (members : ∀ entry ∈ entries, Apart entry.2.members)
    (added : ∀ state ∈ finals, state ∈ known.map Prod.fst) :
    (⟨initial, epsilon, ⟨known⟩, finals, alphabet⟩ : DFA).performAll (entries.map whole.stateCall) =
      .ok ⟨initial, epsilon, ⟨known ++ entries.map bare⟩,
        finals ++ (entries.map Prod.fst).filter whole.isFinal, alphabet⟩ := by
  induction entries generalizing known finals with
  | nil => simp [performAll, pure, Except.pure]
  | cons entry rest ih =>
      obtain ⟨name, node⟩ := entry
      obtain ⟨single, later⟩ := List.forall_mem_cons.mp members
      rw [List.map_append, List.map_cons] at apart
      have absent := contains_eq_false_of_apart apart
      -- no final state equals the new one, since all of them were added before
      have fresh : finals.contains name = false := by
        apply Bool.eq_false_iff.mpr
        intro present
        obtain ⟨state, here, same⟩ := List.contains_iff_exists_mem_beq.mp present
        have found := List.contains_iff_exists_mem_beq.mpr ⟨state, added state here, same⟩
        simp [found] at absent
      have state : (⟨initial, epsilon, ⟨known⟩, finals, alphabet⟩ : DFA).addState name node.members =
          ⟨initial, epsilon, ⟨known ++ [bare (name, node)]⟩, finals, alphabet⟩ := by
        have missing : (⟨known⟩ : Table Label Node).contains name = false := by
          rw [Table.contains_eq_contains_keys]
          exact absent
        rw [DFA.addState, Table.putNew_of_absent missing, foldl_addNew_of_apart (by simpa using single)]
        rfl
      have step : (⟨initial, epsilon, ⟨known⟩, finals, alphabet⟩ : DFA).perform (whole.stateCall (name, node)) =
          .ok ⟨initial, epsilon, ⟨known ++ [bare (name, node)]⟩, finals ++ [name].filter whole.isFinal,
            alphabet⟩ := by
        by_cases final : whole.isFinal name = true
        · simp [stateCall, final, DFA.perform, DFA.addFinal, state, addNew, fresh]
        · simp [stateCall, final, DFA.perform, state]
      have onward := @ih (finals ++ [name].filter whole.isFinal) (known ++ [bare (name, node)])
        (by simpa [bare] using apart) later (by
          intro state present
          rcases List.mem_append.mp present with earlier | new
          · simpa using .inl (by simpa using added state earlier)
          · obtain rfl := List.mem_singleton.mp (List.mem_filter.mp new).1
            simp [bare])
      rw [List.map_cons, performAll_cons step, onward]
      by_cases final : whole.isFinal name = true <;> simp [final]

theorem performAll_move {before after : List (Label × Node)} {name : Label} {members : List Label}
    {moves known : List (Label × Label)}
    (apart : Apart (Table.keys ⟨before ++ (name, ⟨members, ⟨known⟩⟩) :: after⟩))
    (single : Apart ((known ++ moves).map Prod.fst))
    (fits : ∀ move ∈ moves, (move.1 == epsilon) = false ∧ alphabet.contains move.1 = true ∧
      (Table.keys ⟨before ++ (name, ⟨members, ⟨known⟩⟩) :: after⟩).contains move.2 = true) :
    (⟨initial, epsilon, ⟨before ++ (name, ⟨members, ⟨known⟩⟩) :: after⟩, finals, alphabet⟩ : DFA).performAll
        (moves.map fun move => .addTransition name move.1 move.2) =
      .ok ⟨initial, epsilon, ⟨before ++ (name, ⟨members, ⟨known ++ moves⟩⟩) :: after⟩, finals, alphabet⟩ := by
  induction moves generalizing known with
  | nil => simp [performAll, pure, Except.pure]
  | cons move rest ih =>
      obtain ⟨symbol, target⟩ := move
      obtain ⟨⟨real, lettered, leads⟩, later⟩ := List.forall_mem_cons.mp fits
      rw [List.map_append, List.map_cons] at single
      have step : (⟨initial, epsilon, ⟨before ++ (name, ⟨members, ⟨known⟩⟩) :: after⟩, finals,
          alphabet⟩ : DFA).perform (.addTransition name symbol target) =
            .ok ⟨initial, epsilon, ⟨before ++ (name, ⟨members, ⟨known ++ [(symbol, target)]⟩⟩) :: after⟩,
              finals, alphabet⟩ := by
        refine (addTransition_eq_ok_iff ..).mpr ⟨⟨real, ?_, ?_⟩, ?_⟩
        · simp [hasState, Table.contains_eq_contains_keys, Table.keys]
        · rwa [hasState, Table.contains_eq_contains_keys]
        · have fresh : (⟨known⟩ : Table Label Label).contains symbol = false := by
            rw [Table.contains_eq_contains_keys]
            exact contains_eq_false_of_apart single
          have knownApart : Apart (Table.keys (⟨known⟩ : Table Label Label)) :=
            (List.pairwise_append.mp single).1
          rw [moved, Table.modify_of_apart apart, Table.put_of_absent knownApart fresh]
          simp [addNew, lettered]
      rw [List.map_cons, performAll_cons step, ih]
      · simp
      · simpa [Table.keys] using apart
      · simpa using single
      · simpa [Table.keys] using later

theorem performAll_moves {entries known : List (Label × Node)}
    (apart : Apart ((known ++ entries).map Prod.fst))
    (fits : ∀ entry ∈ entries, Apart entry.2.moves.keys ∧ ∀ move ∈ entry.2.moves.entries,
      (move.1 == epsilon) = false ∧ alphabet.contains move.1 = true ∧
        ((known ++ entries).map Prod.fst).contains move.2 = true) :
    (⟨initial, epsilon, ⟨known ++ entries.map bare⟩, finals, alphabet⟩ : DFA).performAll
        (entries.flatMap moveCalls) = .ok ⟨initial, epsilon, ⟨known ++ entries⟩, finals, alphabet⟩ := by
  induction entries generalizing known with
  | nil => simp [performAll, pure, Except.pure]
  | cons entry rest ih =>
      obtain ⟨name, ⟨members, ⟨moves⟩⟩⟩ := entry
      obtain ⟨⟨single, leads⟩, later⟩ := List.forall_mem_cons.mp fits
      have names : (rest.map bare).map Prod.fst = rest.map Prod.fst := by simp [bare]
      have first := @performAll_move initial epsilon alphabet finals known (rest.map bare) name members moves []
        (by simpa [Table.keys, names] using apart) (by simpa [Table.keys] using single)
        (by simpa [Table.keys, names] using leads)
      have onward := @ih (known ++ [(name, ⟨members, ⟨moves⟩⟩)]) (by simpa using apart) (by simpa using later)
      rw [List.flatMap_cons]
      simp only [List.nil_append, List.append_assoc, List.cons_append] at first onward
      exact (performAll_of_ok first _).trans onward

end Phases

/-- An automaton whose final states stand in the order of its states is made by its calls. -/
theorem Regular.performAll_calls {dfa : DFA} (regular : dfa.Regular)
    (finals : dfa.finals = dfa.states.keys.filter dfa.isFinal) :
    (empty dfa.initial dfa.epsilon).performAll dfa.calls = .ok dfa := by
  have node {entry : Label × Node} (present : entry ∈ dfa.states.entries) : dfa.Fits entry.2 :=
    regular.nodes entry.1 entry.2 (Table.get?_of_mem regular.states present BEq.rfl)
  have symbols : (empty dfa.initial dfa.epsilon).performAll (dfa.alphabet.map .addSymbol) =
      .ok ⟨dfa.initial, dfa.epsilon, ⟨[]⟩, [], dfa.alphabet⟩ :=
    performAll_symbols regular.alphabet regular.real
  have states : (⟨dfa.initial, dfa.epsilon, ⟨[]⟩, [], dfa.alphabet⟩ : DFA).performAll
      (dfa.states.entries.map dfa.stateCall) =
        .ok ⟨dfa.initial, dfa.epsilon, ⟨dfa.states.entries.map bare⟩, dfa.finals, dfa.alphabet⟩ := by
    rw [finals]
    exact @performAll_states _ _ _ [] dfa _ [] regular.states (fun entry present => (node present).members)
      (by simp)
  have moves : (⟨dfa.initial, dfa.epsilon, ⟨dfa.states.entries.map bare⟩, dfa.finals,
      dfa.alphabet⟩ : DFA).performAll (dfa.states.entries.flatMap moveCalls) = .ok dfa := by
    refine @performAll_moves _ _ _ _ dfa.states.entries [] regular.states fun entry present => ?_
    refine ⟨(node present).moves, fun move here => ?_⟩
    have leads := (node present).leads move.1 move.2 (Table.get?_of_mem (node present).moves here BEq.rfl)
    rwa [hasState, Table.contains_eq_contains_keys] at leads
  rw [calls, performAll_of_ok ((performAll_of_ok symbols _).trans states), moves]

end DFA

end FiniteAutomata
