import FiniteAutomata.Proofs.DFA.Requests
import FiniteAutomata.Proofs.NFA.Requests
import FiniteAutomata.Proofs.Stepwise

set_option autoImplicit false

/-!
Which calls are refused after any run, for which reason, and what they leave behind. The states that a call refers to
have to be known: on a nondeterministic automaton by the name of the latest start or of a state that was added, on a
deterministic one by being added. A call that is refused leaves everything as it was.
-/

namespace FiniteAutomata

/-- The calls that are refused, each for its reason and without a change, and what becomes of the others. -/
structure Refuses {σ Command : Type} (before : σ) (call : Command → EStateM Error σ Unit)
    (perform : Command → Except Error σ) (Refusal : Command → Error → Prop) : Prop where
  refused : ∀ command error left, call command before = .error error left ↔
    Refusal command error ∧ left = before
  carried : ∀ command changed, call command before = .ok () changed ↔ perform command = .ok changed
  otherwise : ∀ command, (∀ error, ¬ Refusal command error) → ∃ changed, call command before = .ok () changed

theorem refuses_of_atOnce {σ Command : Type} {before : σ} {call : Command → EStateM Error σ Unit}
    {perform : Command → Except Error σ} {Refusal : Command → Error → Prop}
    (whole : ∀ command, call command before = atOnce before (perform command))
    (refused : ∀ command error, perform command = .error error ↔ Refusal command error) :
    Refuses before call perform Refusal where
  refused command error left := by rw [whole, atOnce_eq_error_iff, refused]
  carried command changed := by rw [whole, atOnce_eq_ok_iff]
  otherwise command none := by
    cases outcome : perform command with
    | ok changed => exact ⟨changed, by rw [whole, outcome]; rfl⟩
    | error error => exact absurd ((refused command error).mp outcome) (none error)

namespace DFA

/-- Why a call is refused where the states that are known are given. The symbol is looked at first. -/
inductive Refusal (epsilon : Label) (Present : Label → Prop) : Command → Error → Prop where
  | silent {command : Command} {symbol : Label} (reads : command.symbol? = some symbol)
      (marker : (symbol == epsilon) = true) : Refusal epsilon Present command (.epsilonSymbol symbol)
  | source {source symbol target : Label} (real : (symbol == epsilon) = false) (unknown : ¬ Present source) :
      Refusal epsilon Present (.addTransition source symbol target) (.unknownState source)
  | target {source symbol target : Label} (real : (symbol == epsilon) = false) (begins : Present source)
      (unknown : ¬ Present target) : Refusal epsilon Present (.addTransition source symbol target) (.unknownState target)

theorem addSymbol_eq_error_iff (dfa : DFA) (symbol : Label) (error : Error) :
    dfa.addSymbol symbol = .error error ↔ (symbol == dfa.epsilon) = true ∧ error = .epsilonSymbol symbol := by
  by_cases silent : (symbol == dfa.epsilon) = true <;>
    simp [addSymbol, checkSymbol, silent, bind, Except.bind, pure, Except.pure, eq_comm]

theorem addTransition_eq_error_iff (dfa : DFA) (source symbol target : Label) (error : Error) :
    dfa.addTransition source symbol target = .error error ↔
      (symbol == dfa.epsilon) = true ∧ error = .epsilonSymbol symbol ∨
      (symbol == dfa.epsilon) = false ∧ (dfa.hasState source = false ∧ error = .unknownState source ∨
        dfa.hasState source = true ∧ dfa.hasState target = false ∧ error = .unknownState target) := by
  by_cases silent : (symbol == dfa.epsilon) = true <;>
    by_cases sourceKnown : dfa.hasState source = true <;>
      by_cases targetKnown : dfa.hasState target = true <;>
        simp [addTransition, checkSymbol, checkState, silent, sourceKnown, targetKnown, bind, Except.bind, pure,
          Except.pure, eq_comm]

theorem perform_eq_error_iff (dfa : DFA) (command : Command) (error : Error) :
    dfa.perform command = .error error ↔
      Refusal dfa.epsilon (fun state => dfa.hasState state = true) command error := by
  cases command with
  | addState name members | addFinal name members =>
      refine ⟨nofun, ?_⟩
      rintro (⟨reads, -⟩ | - | -)
      cases reads
  | addSymbol symbol =>
      rw [perform, addSymbol_eq_error_iff]
      constructor
      · rintro ⟨marker, rfl⟩
        exact .silent rfl marker
      · rintro (⟨reads, marker⟩ | - | -)
        obtain rfl := Option.some.inj reads
        exact ⟨marker, rfl⟩
  | addTransition source symbol target =>
      rw [perform, addTransition_eq_error_iff]
      constructor
      · rintro (⟨marker, rfl⟩ | ⟨real, ⟨unknown, rfl⟩ | ⟨begins, unknown, rfl⟩⟩)
        · exact .silent rfl marker
        · exact .source real (Bool.eq_false_iff.mp unknown)
        · exact .target real begins (Bool.eq_false_iff.mp unknown)
      · rintro (⟨reads, marker⟩ | ⟨real, unknown⟩ | ⟨real, begins, unknown⟩)
        · obtain rfl := Option.some.inj reads
          exact .inl ⟨marker, rfl⟩
        · exact .inr ⟨real, .inl ⟨Bool.eq_false_iff.mpr unknown, rfl⟩⟩
        · exact .inr ⟨real, .inr ⟨begins, Bool.eq_false_iff.mpr unknown, rfl⟩⟩

theorem refuses_replay (initial epsilon : Label) (commands : List Command) :
    Refuses ((empty initial epsilon).replay commands) carryOut ((empty initial epsilon).replay commands).perform
      (Refusal epsilon (Added commands)) := by
  refine refuses_of_atOnce (fun command => carryOut_eq command _) fun command error => ?_
  have marker : ((empty initial epsilon).replay commands).epsilon = epsilon := (frame_replay _ commands).2
  have known : (fun state => ((empty initial epsilon).replay commands).hasState state = true) = Added commands :=
    funext fun state => propext (hasState_replay_empty initial epsilon commands state)
  rw [perform_eq_error_iff, marker, known]

end DFA

namespace NFA

/-- The name under which a call makes a state. -/
def Command.made? : Command → Option Label
  | .setStart name | .addState name | .addFinal name => some name
  | .addSymbol _ | .addTransition _ _ _ => none

/-- The names that stand for a state after the calls: that of the latest start and those of the states that were
added. -/
def Known (done : List Command) (name : Label) : Prop :=
  latestStart done = some name ∨ .addState name ∈ done ∨ .addFinal name ∈ done

/-- Why a call is refused where the names that are known are given. -/
inductive Refusal (epsilon : Label) (Present : Label → Prop) : Command → Error → Prop where
  | notText {command : Command} {name : Label} (makes : command.made? = some name)
      (other : ∀ text, name ≠ .text text) : Refusal epsilon Present command (.nameNotText name)
  | emptyName {command : Command} (makes : command.made? = some (.text "")) :
      Refusal epsilon Present command .emptyName
  | silent {symbol : Label} (marker : (symbol == epsilon) = true) :
      Refusal epsilon Present (.addSymbol symbol) (.epsilonSymbol symbol)
  | source {source label target : Label} (unknown : ¬ Present source) :
      Refusal epsilon Present (.addTransition source label target) (.unknownState source)
  | target {source label target : Label} (begins : Present source) (unknown : ¬ Present target) :
      Refusal epsilon Present (.addTransition source label target) (.unknownState target)

variable {epsilon : Label} {symbols : List Label} {fresh nfa : NFA}

theorem newState_eq_error_iff (graph : Graph) (name : Label) (error : Error) :
    graph.newState name = .error error ↔
      (∀ text, name ≠ .text text) ∧ error = .nameNotText name ∨ name = .text "" ∧ error = .emptyName := by
  cases name with
  | text text =>
      by_cases empty : text = "" <;>
        simp [Graph.newState, State.ofLabel, empty, bind, Except.bind, pure, Except.pure, eq_comm]
  | null | truth | int | tuple | marker => simp [Graph.newState, State.ofLabel, bind, Except.bind, eq_comm]

theorem perform_eq_error_iff_of_made {command : Command} {name : Label} (makes : command.made? = some name)
    (error : Error) : nfa.perform command = .error error ↔ nfa.graph.newState name = .error error := by
  cases command with
  | setStart | addState | addFinal =>
      obtain rfl := Option.some.inj makes
      rw [perform]
      simp only [setStart, addState, addFinal]
      cases nfa.graph.newState _ <;> simp [bind, Except.bind, pure, Except.pure]
  | addSymbol | addTransition => cases makes

theorem addSymbol_eq_error_iff (symbol : Label) (error : Error) :
    nfa.addSymbol symbol = .error error ↔ (symbol == nfa.epsilon) = true ∧ error = .epsilonSymbol symbol := by
  by_cases silent : (symbol == nfa.epsilon) = true <;>
    simp [addSymbol, checkSymbol, silent, bind, Except.bind, pure, Except.pure, eq_comm]

theorem addTransition_eq_error_iff (source label target : Label) (error : Error) :
    nfa.addTransition source label target = .error error ↔
      (nfa.find? source).isSome = false ∧ error = .unknownState source ∨
      (nfa.find? source).isSome = true ∧ (nfa.find? target).isSome = false ∧ error = .unknownState target := by
  cases sourceFound : nfa.find? source <;>
    cases targetFound : nfa.find? target <;>
      simp [addTransition, find, sourceFound, targetFound, bind, Except.bind, pure, Except.pure] <;>
        exact eq_comm

theorem perform_eq_error_iff_refusal_of_made {Present : Label → Prop} {command : Command} {name : Label}
    (makes : command.made? = some name) (error : Error) :
    nfa.perform command = .error error ↔ Refusal epsilon Present command error := by
  rw [perform_eq_error_iff_of_made makes, newState_eq_error_iff]
  constructor
  · rintro (⟨other, rfl⟩ | ⟨rfl, rfl⟩)
    · exact .notText makes other
    · exact .emptyName makes
  · rintro (⟨same, other⟩ | same | - | - | -)
    · obtain rfl := Option.some.inj (makes.symm.trans same)
      exact .inl ⟨other, rfl⟩
    · obtain rfl := Option.some.inj (makes.symm.trans same)
      exact .inr ⟨rfl, rfl⟩
    all_goals cases makes

theorem perform_eq_error_iff (nfa : NFA) (command : Command) (error : Error) :
    nfa.perform command = .error error ↔
      Refusal nfa.epsilon (fun name => (nfa.find? name).isSome = true) command error := by
  cases command with
  | setStart name | addState name | addFinal name => exact perform_eq_error_iff_refusal_of_made rfl error
  | addSymbol symbol =>
      rw [perform, addSymbol_eq_error_iff]
      constructor
      · rintro ⟨marker, rfl⟩
        exact .silent marker
      · rintro (⟨⟨⟩, -⟩ | ⟨⟨⟩⟩ | marker | - | -)
        exact ⟨marker, rfl⟩
  | addTransition source label target =>
      rw [perform, addTransition_eq_error_iff]
      constructor
      · rintro (⟨unknown, rfl⟩ | ⟨begins, unknown, rfl⟩)
        · exact .source (Bool.eq_false_iff.mp unknown)
        · exact .target begins (Bool.eq_false_iff.mp unknown)
      · rintro (⟨⟨⟩, -⟩ | ⟨⟨⟩⟩ | - | unknown | ⟨begins, unknown⟩)
        · exact .inl ⟨Bool.eq_false_iff.mpr unknown, rfl⟩
        · exact .inr ⟨begins, Bool.eq_false_iff.mpr unknown, rfl⟩

/-- States are made under texts only. -/
theorem exists_text_of_performed {commands : List Command} {command : Command} {name : Label}
    (done : command ∈ nfa.performed commands) (makes : command.made? = some name) : ∃ text, name = .text text := by
  refine @replay_induction nfa (fun _ performed => ∀ command ∈ performed, ∀ name,
    command.made? = some name → ∃ text, name = .text text) nofun commands ?_ command done name makes
  intro _ last _ changed _ earlier success command here name makes
  rcases List.mem_append.mp here with before | here
  · exact earlier command before name makes
  · obtain rfl := List.mem_singleton.mp here
    cases effect_of_perform success with
    | setStart text | addState text | addFinal text => exact ⟨text, (Option.some.inj makes).symm⟩
    | addSymbol | addTransition => cases makes

theorem mem_of_latestStart {done : List Command} {name : Label} (latest : latestStart done = some name) :
    .setStart name ∈ done := by
  obtain ⟨command, here, told⟩ := List.mem_filterMap.mp (List.mem_of_getLast? latest)
  cases command with
  | setStart other =>
      obtain rfl := Option.some.inj told
      exact here
  | addState | addFinal | addSymbol | addTransition => cases told

theorem exists_text_of_known {commands : List Command} {name : Label} (known : Known (nfa.performed commands) name) :
    ∃ text, name = .text text := by
  rcases known with latest | ordinary | final
  · exact exists_text_of_performed (mem_of_latestStart latest) rfl
  · exact exists_text_of_performed ordinary rfl
  · exact exists_text_of_performed final rfl

theorem isSome_find?_iff_known (created : create epsilon symbols .empty = .ok fresh) (commands : List Command)
    (name : Label) : ((fresh.replay commands).find? name).isSome = true ↔ Known (fresh.performed commands) name := by
  constructor
  · intro found
    obtain ⟨state, found⟩ := Option.isSome_iff_exists.mp found
    obtain ⟨-, rfl⟩ := current_of_find? found
    exact (isSome_find?_replay created commands state.name).mp (by rw [found]; rfl)
  · intro known
    obtain ⟨text, rfl⟩ := exists_text_of_known known
    exact (isSome_find?_replay created commands text).mpr known

theorem refuses_replay (created : create epsilon symbols .empty = .ok fresh) (commands : List Command) :
    Refuses (fresh.replay commands) carryOut (fresh.replay commands).perform
      (Refusal epsilon (Known (fresh.performed commands))) := by
  refine refuses_of_atOnce (fun command => carryOut_eq command _) fun command error => ?_
  have known : (fun name => ((fresh.replay commands).find? name).isSome = true) =
      Known (fresh.performed commands) :=
    funext fun name => propext (isSome_find?_iff_known created commands name)
  rw [perform_eq_error_iff, epsilon_replay created, known]

end NFA

/-- After any run of calls on an automaton of either kind, which calls are refused and for which reason is told by the
calls that were performed, and a call that is refused leaves the automaton as it was, so that whatever is asked of it
is answered as before. -/
theorem refuses_after_runs {epsilon : Label} {symbols : List Label} {fresh : NFA}
    (created : NFA.create epsilon symbols .empty = .ok fresh) (commands : List NFA.Command)
    (initial marker : Label) (calls : List DFA.Command) :
    (carryOn NFA.carryOut commands fresh = fresh.replay commands ∧
      (∀ name, (∃ state, (fresh.replay commands).find name = .ok state) ↔
        NFA.Known (fresh.performed commands) name) ∧
      Refuses (fresh.replay commands) NFA.carryOut (fresh.replay commands).perform
        (NFA.Refusal epsilon (NFA.Known (fresh.performed commands)))) ∧
    carryOn DFA.carryOut calls (DFA.empty initial marker) = (DFA.empty initial marker).replay calls ∧
      (∀ state, ((DFA.empty initial marker).replay calls).hasState state = true ↔ DFA.Added calls state) ∧
      Refuses ((DFA.empty initial marker).replay calls) DFA.carryOut ((DFA.empty initial marker).replay calls).perform
        (DFA.Refusal marker (DFA.Added calls)) := by
  refine ⟨⟨NFA.carryOn_eq_replay commands fresh, fun name => ?_, NFA.refuses_replay created commands⟩,
    DFA.carryOn_eq_replay calls _, DFA.hasState_replay_empty initial marker calls,
    DFA.refuses_replay initial marker calls⟩
  simp only [NFA.find_eq_ok_iff]
  rw [← NFA.isSome_find?_iff_known created commands name, Option.isSome_iff_exists]

/-- A run that replaces the start, between calls that are refused. -/
def forgottenStart : List NFA.Command := [.setStart (.text "s"), .addState (.text "x"), .addFinal (.text ""),
  .addTransition (.text "s") (.text "a") (.text "u"), .setStart (.text "t"), .addState (.int 3)]

theorem refuses_after_runs_forgottenStart :
    NFA.create standardEpsilon [] .empty = .ok (NFA.empty standardEpsilon .empty) ∧
      (carryOn NFA.carryOut forgottenStart (NFA.empty standardEpsilon .empty) =
          (NFA.empty standardEpsilon .empty).replay forgottenStart ∧
        (¬ ∃ state, ((NFA.empty standardEpsilon .empty).replay forgottenStart).find (.text "s") = .ok state) ∧
        NFA.carryOut (.addTransition (.text "s") (.text "a") (.text "u"))
            ((NFA.empty standardEpsilon .empty).replay forgottenStart) =
          .error (.unknownState (.text "s")) ((NFA.empty standardEpsilon .empty).replay forgottenStart) ∧
        NFA.carryOut (.addTransition (.text "x") (.text "a") (.text "u"))
            ((NFA.empty standardEpsilon .empty).replay forgottenStart) =
          .error (.unknownState (.text "u")) ((NFA.empty standardEpsilon .empty).replay forgottenStart)) ∧
      (DFA.carryOut (.addTransition (.text "q") (.text "e") (.text "q"))
          ((DFA.empty (.text "p") (.text "e")).replay [.addState (.text "p") []]) =
        .error (.epsilonSymbol (.text "e")) ((DFA.empty (.text "p") (.text "e")).replay [.addState (.text "p") []]) ∧
      DFA.carryOut (.addTransition (.text "p") (.text "a") (.text "q"))
          ((DFA.empty (.text "p") (.text "e")).replay [.addState (.text "p") []]) =
        .error (.unknownState (.text "q")) ((DFA.empty (.text "p") (.text "e")).replay [.addState (.text "p") []])) := by
  have created : NFA.create standardEpsilon [] .empty = .ok (NFA.empty standardEpsilon .empty) := rfl
  obtain ⟨⟨runs, resolves, refuses⟩, -, added, rejects⟩ :=
    refuses_after_runs created forgottenStart (.text "p") (.text "e") [.addState (.text "p") []]
  have done : (NFA.empty standardEpsilon .empty).performed forgottenStart =
      [.setStart (.text "s"), .addState (.text "x"), .setStart (.text "t")] := by rfl
  rw [done] at resolves refuses
  have latest : NFA.latestStart [.setStart (.text "s"), .addState (.text "x"), .setStart (.text "t")] =
      some (.text "t") := rfl
  have known : NFA.Known [.setStart (.text "s"), .addState (.text "x"), .setStart (.text "t")] (.text "x") :=
    .inr (.inl (by simp))
  have unknown (name : String) (other : name = "s" ∨ name = "u") :
      ¬ NFA.Known [.setStart (.text "s"), .addState (.text "x"), .setStart (.text "t")] (.text name) := by
    rcases other with rfl | rfl <;> simp [NFA.Known, latest]
  refine ⟨created, ⟨runs, (resolves _).not.mpr (unknown "s" (.inl rfl)), ?_, ?_⟩, ?_, ?_⟩
  · exact (refuses.refused ..).mpr ⟨.source (unknown "s" (.inl rfl)), rfl⟩
  · exact (refuses.refused ..).mpr ⟨.target known (unknown "u" (.inr rfl)), rfl⟩
  · exact (rejects.refused ..).mpr ⟨.silent rfl rfl, rfl⟩
  · have begins : DFA.Added [.addState (.text "p") []] (.text "p") := (added _).mp rfl
    have absent : ¬ DFA.Added [.addState (.text "p") []] (.text "q") :=
      (added _).not.mp (Bool.eq_false_iff.mp rfl)
    exact (rejects.refused ..).mpr ⟨.target rfl begins absent, rfl⟩

end FiniteAutomata
