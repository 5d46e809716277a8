import FiniteAutomata.Proofs.NFA.Simulation

set_option autoImplicit false

/-!
Words with markers of silent steps in them. A nondeterministic automaton refuses them all. The deterministic
automaton stops reading where it is stuck, so that it refuses those only that it can read up to a marker.
-/

namespace FiniteAutomata

namespace DFA

variable {dfa : DFA} {before : List Label}

theorem read_append (solid : dfa.Solid) (unmarked : Unmarked dfa.epsilon before) (state : Label)
    (rest : List Label) : dfa.machine.read state (before ++ rest) =
      (dfa.follow state before).elim (.ok .null) fun reached => dfa.machine.read reached rest := by
  induction before generalizing state with
  | nil => rfl
  | cons symbol word ih =>
      obtain ⟨real, later⟩ := unmarked_cons.mp unmarked
      have step : dfa.machine.next state symbol = _ := next_of_real state real
      rw [List.cons_append, Machine.read_cons_ok _ step, follow_cons]
      cases target : dfa.target? state symbol with
      | none => rfl
      | some goal =>
          have unstuck : dfa.machine.isStuck goal = false := solid state symbol goal target
          simp only [Option.getD_some, unstuck, Bool.false_eq_true, if_false, Option.bind_some]
          exact ih later goal

theorem accept_of_marked (solid : dfa.Solid) (unmarked : Unmarked dfa.epsilon before) {symbol : Label}
    (marked : (symbol == dfa.epsilon) = true) (after : List Label) :
    dfa.accept (before ++ symbol :: after) =
      if (dfa.follow dfa.initial before).isSome then .error (.epsilonSymbol symbol)
      else .ok (dfa.isFinal .null) := by
  have begun : dfa.machine.start = .ok dfa.initial := rfl
  simp only [accept, Machine.accept, begun, bind, Except.bind, read_append solid unmarked]
  cases dfa.follow dfa.initial before with
  | none => rfl
  | some reached =>
      have refused : dfa.machine.next reached symbol = _ := next_of_silent reached marked
      simp only [Option.elim_some, Machine.read_cons_error _ refused, Option.isSome_some, if_true]

end DFA

namespace NFA

variable {nfa : NFA} {before : List Label}

theorem read_append (sound : nfa.graph.Sound) (unmarked : Unmarked nfa.epsilon before) (states : List State)
    (rest : List Label) :
    nfa.machine.read states (before ++ rest) = nfa.machine.read (nfa.follow states before) rest := by
  induction before generalizing states with
  | nil => rfl
  | cons symbol word ih =>
      obtain ⟨real, later⟩ := unmarked_cons.mp unmarked
      rw [List.cons_append, nfa.machine.read_cons_ok (next_eq sound states real)]
      exact ih later _

theorem accept_of_unstarted (unstarted : nfa.initial = none) (word : List Label) :
    nfa.accept word = .error .noStart := by
  simp [accept, Machine.accept, machine, start, unstarted, bind, Except.bind]

theorem accept_of_marked (sound : nfa.graph.Sound) {start : State} (started : nfa.initial = some start)
    (unmarked : Unmarked nfa.epsilon before) {symbol : Label} (marked : (symbol == nfa.epsilon) = true)
    (after : List Label) : nfa.accept (before ++ symbol :: after) = .error (.epsilonSymbol symbol) := by
  have begun : nfa.machine.start = .ok (nfa.close [start]) := start_of_sound sound started
  have refused (states : List State) : nfa.machine.next states symbol = .error (.epsilonSymbol symbol) :=
    nfa.next_epsilon states marked
  simp only [accept, Machine.accept, begun, bind, Except.bind, read_append sound unmarked]
  rw [nfa.machine.read_cons_error (refused _)]

/-- Which words are refused for a marker in them, by the given automaton and by the one built of it. -/
theorem toDfa_refuses_marked {epsilon : Label} {symbols : List Label} {fresh : NFA}
    (created : create epsilon symbols .empty = .ok fresh) {commands : List Command} {start : State}
    (started : (fresh.replay commands).initial = some start) (namer : Namer) :
    ∃ dfa, (fresh.replay commands).toDfa namer.name = .ok dfa ∧
      (∀ word, Unmarked epsilon word → (∃ accepted, (fresh.replay commands).accept word = .ok accepted) ∧
        ∃ accepted, dfa.accept word = .ok accepted) ∧
      (∀ before symbol after, Unmarked epsilon before → (symbol == epsilon) = true →
        (fresh.replay commands).accept (before ++ symbol :: after) = .error (.epsilonSymbol symbol) ∧
        dfa.accept (before ++ symbol :: after) =
          if (dfa.follow dfa.initial before).isSome then .error (.epsilonSymbol symbol) else .ok false) ∧
      (fresh.NameStable commands → ∀ before, Unmarked epsilon before →
        ((dfa.follow dfa.initial before).isSome = true ↔
          ∃ states, (fresh.replay commands).simulate before = .ok states ∧ states ≠ [])) := by
  have regular := (regular_of_create created).replay commands
  have coherent : fresh.NameStable commands → (fresh.replay commands).Coherent :=
    fun stable => (faithful_replay created stable).coherent
  have marker := epsilon_replay created commands
  generalize fresh.replay commands = nfa at regular coherent started marker ⊢
  subst marker
  obtain ⟨built, covers⟩ := toDfa_namer regular.sound started namer
  refine ⟨_, built, fun word unmarked => ?_, fun before symbol after unmarked marked => ?_,
    fun stable before unmarked => ?_⟩
  · exact ⟨⟨_, accept_eq regular.sound started unmarked⟩,
      ⟨_, DFA.accept_eq_verdict (solid_assemble _) unmarked⟩⟩
  · refine ⟨accept_of_marked regular.sound started unmarked marked after, ?_⟩
    rw [DFA.accept_of_marked (solid_assemble _) unmarked marked, isFinal_null]
  · rw [(simulates_of_covers regular (coherent stable) started covers rfl).defined before unmarked]
    constructor
    · intro filled
      exact filled before (List.prefix_refl before)
    · rintro ⟨states, reached, filled⟩ part begins
      rw [simulate_eq_follow regular.sound started unmarked] at reached
      obtain rfl := Except.ok.inj reached
      exact ⟨_, simulate_eq_follow regular.sound started (unmarked.of_prefix begins),
        (follow_ne_nil_iff _ before).mp filled part begins⟩

/-- A run with a letter as the marker of silent steps. -/
def letterMarker : List Command := [.setStart (.text "p"), .addFinal (.text "q"),
  .addTransition (.text "p") (.text "a") (.text "q")]

theorem initial_letterMarker :
    ((empty (.text "e") .empty).replay letterMarker).initial = some ⟨0, "p", by decide⟩ := by rfl

theorem nameStable_letterMarker : (empty (.text "e") .empty).NameStable letterMarker :=
  @nameStable_append _ (letterMarker.take 2) (letterMarker.drop 2) (by simp [letterMarker])
    (by simp [letterMarker]) (by simp [letterMarker])

theorem toDfa_refuses_marked_letterMarker :
    create (.text "e") [] .empty = .ok (empty (.text "e") .empty) ∧
      (empty (.text "e") .empty).NameStable letterMarker ∧
      Unmarked (.text "e") [.text "a"] ∧ (Label.text "e" == .text "e") = true ∧
      ∃ dfa, ((empty (.text "e") .empty).replay letterMarker).toDfa Namer.standard.name = .ok dfa ∧
        (∃ accepted, dfa.accept [.text "a"] = .ok accepted) ∧
        dfa.accept [.text "a", .text "e", .text "b"] = .error (.epsilonSymbol (.text "e")) := by
  have created : create (.text "e") [] .empty = .ok (empty (.text "e") .empty) := rfl
  have unmarked : Unmarked (.text "e") [.text "a"] := by
    unfold Unmarked
    decide
  obtain ⟨dfa, built, clear, marked, reached⟩ :=
    toDfa_refuses_marked created initial_letterMarker Namer.standard
  have onward : (dfa.follow dfa.initial [.text "a"]).isSome = true :=
    (reached nameStable_letterMarker _ unmarked).mpr ⟨_, rfl, by decide⟩
  have refused := (marked _ (.text "e") [.text "b"] unmarked rfl).2
  rw [if_pos onward] at refused
  exact ⟨created, nameStable_letterMarker, unmarked, rfl, dfa, built, (clear _ unmarked).2, refused⟩

theorem toDfa_accept_past_dead_end :
    create (.text "e") [] .empty = .ok (empty (.text "e") .empty) ∧
      ((empty (.text "e") .empty).replay letterMarker).initial.isSome = true ∧
      (∃ symbol ∈ [Label.text "b", .text "e"], (symbol == .text "e") = true) ∧
      ((empty (.text "e") .empty).replay letterMarker).accept [.text "b", .text "e"] =
        .error (.epsilonSymbol (.text "e")) ∧
      (((empty (.text "e") .empty).replay letterMarker).toDfa Namer.standard.name >>=
        fun dfa => dfa.accept [.text "b", .text "e"]) = .ok false := by
  -- no move leads on from the start under b, so that the marker after it is not read
  refine ⟨rfl, by rw [initial_letterMarker, Option.isSome_some], ⟨.text "e", by simp, rfl⟩, by rfl, by rfl⟩

end NFA

end FiniteAutomata
