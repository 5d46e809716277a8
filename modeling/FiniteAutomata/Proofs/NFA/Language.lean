import FiniteAutomata.Proofs.NFA.Following

set_option autoImplicit false

/-!
The language of a nondeterministic automaton that was built by a stable run. A word is accepted exactly when
the transitions that were asked for lead along it, by name, from the start to a name that was made final.
-/

namespace FiniteAutomata

namespace NFA

/-- The transitions of a run as links between names. -/
def Asked (done : List Command) (source label target : Label) : Prop :=
  .addTransition source label target ∈ done

variable {nfa : NFA} {done : List Command}

theorem isFinal_iff (states : List State) :
    nfa.isFinal states = true ↔ ∃ state ∈ states, ∃ final ∈ nfa.finals, final.name = state.name := by
  simp only [isFinal, List.any_eq_true, State.contains_iff]

theorem Faithful.path_of_leads (faithful : nfa.Faithful done) {source target : State} {word : List Label}
    (current : nfa.Current source) (path : Path nfa.Leads nfa.epsilon source word target) :
    Path (Asked done) nfa.epsilon (.text source.name) word (.text target.name) := by
  induction path with
  | stay => exact .stay _
  | @silent point middle _ label _ leads marked _ ih =>
      obtain ⟨spelled, same, asked⟩ :=
        (faithful.recorded point current label middle.name).mp ⟨middle, leads, rfl⟩
      exact .silent asked (BEq.trans same marked) (ih (faithful.coherent.current_target leads))
  | @symbol point middle _ label _ _ leads real reads _ ih =>
      obtain ⟨spelled, same, asked⟩ :=
        (faithful.recorded point current label middle.name).mp ⟨middle, leads, rfl⟩
      have spelledReal : (spelled == nfa.epsilon) = false := (BEq.congr_left same).trans real
      exact .symbol asked spelledReal (BEq.trans same reads) (ih (faithful.coherent.current_target leads))

theorem Faithful.leads_of_asked (faithful : nfa.Faithful done) {source : State} {label target : Label}
    (current : nfa.Current source) (asked : Asked done (.text source.name) label target) :
    ∃ goal, target = .text goal.name ∧ nfa.Current goal ∧ nfa.Leads source label goal := by
  obtain ⟨known, found⟩ := Option.isSome_iff_exists.mp (faithful.resolved _ _ _ asked).2
  obtain ⟨-, rfl⟩ := current_of_find? found
  obtain ⟨goal, leads, named⟩ :=
    (faithful.recorded source current label known.name).mpr ⟨label, BEq.rfl, asked⟩
  exact ⟨goal, by rw [named], faithful.coherent.current_target leads, leads⟩

theorem Faithful.leads_of_path (faithful : nfa.Faithful done) {source : State} {word : List Label}
    {last : Label} (current : nfa.Current source)
    (path : Path (Asked done) nfa.epsilon (.text source.name) word last) :
    ∃ target, last = .text target.name ∧ Path nfa.Leads nfa.epsilon source word target := by
  generalize begun : Label.text source.name = first at path
  induction path generalizing source with
  | stay => exact ⟨source, begun.symm, .stay source⟩
  | silent asked marked _ ih =>
      subst begun
      obtain ⟨goal, rfl, goalCurrent, leads⟩ := faithful.leads_of_asked current asked
      obtain ⟨target, ends, rest⟩ := ih goalCurrent rfl
      exact ⟨target, ends, .silent leads marked rest⟩
  | symbol asked real reads _ ih =>
      subst begun
      obtain ⟨goal, rfl, goalCurrent, leads⟩ := faithful.leads_of_asked current asked
      obtain ⟨target, ends, rest⟩ := ih goalCurrent rfl
      exact ⟨target, ends, .symbol leads real reads rest⟩

theorem accept_iff_path {epsilon : Label} {symbols : List Label} {fresh : NFA}
    (created : create epsilon symbols .empty = .ok fresh) {commands : List Command}
    (stable : fresh.NameStable commands) {start : State}
    (started : (fresh.replay commands).initial = some start) {word : List Label}
    (unmarked : Unmarked epsilon word) :
    ∃ accepted, (fresh.replay commands).accept word = .ok accepted ∧
      (accepted = true ↔ ∃ final, .addFinal final ∈ fresh.performed commands ∧
        Path (Asked (fresh.performed commands)) epsilon (.text start.name) word final) := by
  have faithful := faithful_replay created stable
  have sound := ((regular_of_create created).replay commands).sound
  have finals := mem_finals_replay created commands
  have marker := epsilon_replay created commands
  generalize fresh.replay commands = nfa at faithful sound finals marker started ⊢
  subst marker
  have startCurrent := current_initial started
  have given : ∀ state ∈ [start], nfa.Current state := by simpa using startCurrent
  refine ⟨_, accept_eq sound started unmarked, ?_⟩
  rw [isFinal_iff]
  constructor
  · rintro ⟨state, reached, final⟩
    obtain ⟨origin, here, path⟩ := (mem_follow_iff faithful.coherent given unmarked state).mp reached
    obtain rfl := List.mem_singleton.mp here
    exact ⟨.text state.name, (finals state.name).mp final, faithful.path_of_leads startCurrent path⟩
  · rintro ⟨final, made, path⟩
    obtain ⟨target, rfl, leads⟩ := faithful.leads_of_path startCurrent path
    have reached := (mem_follow_iff faithful.coherent given unmarked target).mpr
      ⟨start, List.mem_singleton_self start, leads⟩
    exact ⟨target, reached, (finals target.name).mpr made⟩

/-- A run with a cycle of silent steps, a final state that the start hides, and a call that is refused. -/
def silentCycle : List Command := [.addFinal (.text "s"), .addState (.text "q"), .setStart (.text "s"),
  .addFinal (.text "f"), .addTransition (.text "s") standardEpsilon (.text "q"),
  .addTransition (.text "q") standardEpsilon (.text "s"), .addTransition (.text "q") (.text "a") (.text "f"),
  .addTransition (.text "f") (.text "a") (.text "absent")]

theorem nameStable_silentCycle : (empty standardEpsilon .empty).NameStable silentCycle :=
  @nameStable_append _ (silentCycle.take 4) (silentCycle.drop 4) (by simp [silentCycle])
    (by simp [silentCycle]) (by simp [silentCycle])

theorem initial_silentCycle :
    ((empty standardEpsilon .empty).replay silentCycle).initial = some ⟨2, "s", by decide⟩ := by rfl

theorem unmarked_a : Unmarked standardEpsilon [.text "a"] := by
  unfold Unmarked
  decide

theorem accept_iff_path_silentCycle :
    create standardEpsilon [] .empty = .ok (empty standardEpsilon .empty) ∧
      (empty standardEpsilon .empty).NameStable silentCycle ∧ Unmarked standardEpsilon [.text "a"] ∧
      ∃ final, .addFinal final ∈ (empty standardEpsilon .empty).performed silentCycle ∧
        Path (Asked ((empty standardEpsilon .empty).performed silentCycle)) standardEpsilon (.text "s")
          [.text "a"] final := by
  have created : create standardEpsilon [] .empty = .ok (empty standardEpsilon .empty) := rfl
  have accepts : ((empty standardEpsilon .empty).replay silentCycle).accept [.text "a"] = .ok true := by rfl
  obtain ⟨accepted, answer, told⟩ :=
    accept_iff_path created nameStable_silentCycle initial_silentCycle unmarked_a
  rw [accepts] at answer
  exact ⟨created, nameStable_silentCycle, unmarked_a, told.mp (Except.ok.inj answer).symm⟩

end NFA

end FiniteAutomata
