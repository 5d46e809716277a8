import FiniteAutomata.NFA.Command
import Mathlib.Data.List.Induction

set_option autoImplicit false

/-!
What a call does when it is not refused, and what a run of calls leaves behind: the calls that were performed.
-/

namespace FiniteAutomata

def Graph.born (graph : Graph) (text : String) (filled : text ≠ "") : State :=
  -- the state that is made next, under the name `text`
  ⟨graph.next, text, filled⟩

def Graph.grown (graph : Graph) : Graph :=
  { graph with next := graph.next + 1 }

theorem Graph.newState_eq_ok_iff (graph changed : Graph) (name : Label) (state : State) :
    graph.newState name = .ok (state, changed) ↔
      ∃ text filled, name = .text text ∧ state = graph.born text filled ∧ changed = graph.grown := by
  unfold newState
  constructor
  · intro created
    cases name with
    | text text =>
        by_cases empty : text = ""
        · simp [State.ofLabel, empty, bind, Except.bind] at created
        · simp only [State.ofLabel_text _ text empty, bind, Except.bind, pure, Except.pure,
            Except.ok.injEq, Prod.mk.injEq] at created
          exact ⟨text, empty, rfl, created.1.symm, created.2.symm⟩
    | null | truth | int | tuple | marker => simp [State.ofLabel, bind, Except.bind] at created
  · rintro ⟨text, filled, rfl, rfl, rfl⟩
    simp [State.ofLabel_text _ text filled, bind, Except.bind, pure, Except.pure, born, grown]

namespace NFA

/-- What the calls that are not refused do. -/
inductive Effect (nfa : NFA) : Command → NFA → Prop where
  | setStart (text : String) (filled : text ≠ "") : Effect nfa (.setStart (.text text))
      { nfa with initial := some (nfa.graph.born text filled), graph := nfa.graph.grown }
  | addState (text : String) (filled : text ≠ "") : Effect nfa (.addState (.text text))
      { nfa with ordinary := addNew nfa.ordinary (nfa.graph.born text filled), graph := nfa.graph.grown }
  | addFinal (text : String) (filled : text ≠ "") : Effect nfa (.addFinal (.text text))
      { nfa with finals := addNew nfa.finals (nfa.graph.born text filled), graph := nfa.graph.grown }
  | addSymbol (symbol : Label) (real : (symbol == nfa.epsilon) = false) : Effect nfa (.addSymbol symbol)
      { nfa with alphabet := addNew nfa.alphabet symbol }
  | addTransition (source label target : Label) (origin goal : State)
      (sourceFound : nfa.find? source = some origin) (targetFound : nfa.find? target = some goal) :
      Effect nfa (.addTransition source label target)
        { nfa with
          alphabet := if label == nfa.epsilon then nfa.alphabet else addNew nfa.alphabet label
          graph := nfa.graph.connect origin label goal }

theorem mem_declared_setStart {nfa : NFA} {start state : State} {graph : Graph}
    (present : state ∈ declared { nfa with initial := some start, graph := graph }) :
    state ∈ nfa.declared ∨ state = start := by
  simp only [declared, List.mem_append, Option.toList_some, List.mem_singleton] at present ⊢
  rcases present with (fresh | final) | ordinary
  · exact .inr fresh
  · exact .inl (.inl (.inr final))
  · exact .inl (.inr ordinary)

theorem mem_declared_addState {nfa : NFA} {added state : State} {graph : Graph}
    (present : state ∈ declared { nfa with ordinary := addNew nfa.ordinary added, graph := graph }) :
    state ∈ nfa.declared ∨ state = added := by
  simp only [declared, List.mem_append] at present ⊢
  rcases present with earlier | fresh
  · exact .inl (.inl earlier)
  · exact (mem_addNew fresh).imp_left .inr

theorem mem_declared_addFinal {nfa : NFA} {added state : State} {graph : Graph}
    (present : state ∈ declared { nfa with finals := addNew nfa.finals added, graph := graph }) :
    state ∈ nfa.declared ∨ state = added := by
  simp only [declared, List.mem_append] at present ⊢
  rcases present with (start | fresh) | ordinary
  · exact .inl (.inl (.inl start))
  · exact (mem_addNew fresh).imp_left fun final => .inl (.inr final)
  · exact .inl (.inr ordinary)

theorem find_eq_ok_iff (nfa : NFA) (name : Label) (state : State) :
    nfa.find name = .ok state ↔ nfa.find? name = some state := by
  cases found : nfa.find? name <;> simp [find, found]

theorem effect_of_perform {nfa changed : NFA} {command : Command}
    (success : nfa.perform command = .ok changed) : nfa.Effect command changed := by
  cases command with
  | setStart name | addState name | addFinal name =>
      cases created : nfa.graph.newState name with
      | error error => simp [perform, setStart, addState, addFinal, created, bind, Except.bind] at success
      | ok pair =>
          obtain ⟨state, graph⟩ := pair
          obtain ⟨text, filled, rfl, rfl, rfl⟩ := (Graph.newState_eq_ok_iff ..).mp created
          simp only [perform, setStart, addState, addFinal, created, bind, Except.bind, pure,
            Except.pure, Except.ok.injEq] at success
          subst success
          constructor
  | addSymbol symbol =>
      by_cases silent : (symbol == nfa.epsilon) = true
      · simp [perform, addSymbol, checkSymbol, silent, bind, Except.bind] at success
      · simp only [perform, addSymbol, checkSymbol, silent, bind, Except.bind, pure, Except.pure,
          if_false, Bool.false_eq_true, Except.ok.injEq] at success
        subst success
        exact .addSymbol symbol (by simpa using silent)
  | addTransition source label target =>
      cases sourceFound : nfa.find source with
      | error error => simp [perform, addTransition, sourceFound, bind, Except.bind] at success
      | ok origin =>
          cases targetFound : nfa.find target with
          | error error =>
              simp [perform, addTransition, sourceFound, targetFound, bind, Except.bind] at success
          | ok goal =>
              simp only [perform, addTransition, sourceFound, targetFound, bind, Except.bind, pure,
                Except.pure, Except.ok.injEq] at success
              subst success
              exact .addTransition source label target origin goal ((find_eq_ok_iff ..).mp sourceFound)
                ((find_eq_ok_iff ..).mp targetFound)

/-- The calls that were not refused. -/
def performed (nfa : NFA) : List Command → List Command
  | [] => []
  | command :: rest =>
      match nfa.perform command with
      | .ok changed => command :: changed.performed rest
      | .error _ => nfa.performed rest

@[simp] theorem performed_nil (nfa : NFA) : nfa.performed [] = [] := rfl

@[simp] theorem performed_append (nfa : NFA) (first second : List Command) :
    nfa.performed (first ++ second) = nfa.performed first ++ (nfa.replay first).performed second := by
  induction first generalizing nfa with
  | nil => rfl
  | cons command rest ih =>
      cases step : nfa.perform command <;> simp [performed, replay, attempt, step, ih]

theorem mem_of_mem_performed {nfa : NFA} {commands : List Command} {command : Command}
    (done : command ∈ nfa.performed commands) : command ∈ commands := by
  induction commands generalizing nfa with
  | nil => exact done
  | cons first rest ih =>
      cases step : nfa.perform first with
      | error error =>
          simp only [performed, step] at done
          exact List.mem_cons_of_mem _ (ih done)
      | ok changed =>
          simp only [performed, step, List.mem_cons] at done
          rcases done with rfl | later
          · exact List.mem_cons_self ..
          · exact List.mem_cons_of_mem _ (ih later)

theorem performAll_of_ok {nfa middle : NFA} {first : List Command} (success : nfa.performAll first = .ok middle)
    (second : List Command) : nfa.performAll (first ++ second) = middle.performAll second := by
  rw [performAll, List.foldlM_append, ← performAll, success]
  rfl

/-- Calls that keep what none of them is refused for are all performed. -/
theorem exists_performAll {P : NFA → Prop} {commands : List Command}
    (step : ∀ before, P before → ∀ command ∈ commands, ∃ after, before.perform command = .ok after ∧ P after)
    {nfa : NFA} (holds : P nfa) : ∃ built, nfa.performAll commands = .ok built ∧ P built := by
  induction commands generalizing nfa with
  | nil => exact ⟨nfa, rfl, holds⟩
  | cons command rest ih =>
      obtain ⟨middle, success, kept⟩ := step nfa holds command (List.mem_cons_self ..)
      obtain ⟨built, later, reached⟩ :=
        ih (fun before here other present => step before here other (List.mem_cons_of_mem _ present)) kept
      refine ⟨built, ?_, reached⟩
      rw [performAll, List.foldlM_cons, success]
      exact later

theorem performed_of_performAll {nfa built : NFA} {commands : List Command}
    (success : nfa.performAll commands = .ok built) : nfa.performed commands = commands := by
  induction commands generalizing nfa with
  | nil => rfl
  | cons command rest ih =>
      cases step : nfa.perform command with
      | error error => simp [performAll, step, bind, Except.bind] at success
      | ok changed =>
          have later : changed.performAll rest = .ok built := by
            simpa [performAll, step, bind, Except.bind] using success
          simp [performed, step, ih later]

theorem replay_induction {nfa : NFA} {P : NFA → List Command → Prop} (initial : P nfa [])
    (commands : List Command)
    (step : ∀ before command after changed, commands = before ++ command :: after →
      P (nfa.replay before) (nfa.performed before) →
      (nfa.replay before).perform command = .ok changed →
      P changed (nfa.performed before ++ [command])) :
    P (nfa.replay commands) (nfa.performed commands) := by
  -- from the end, since the step is given the run before the call and not what comes after it
  induction commands using List.reverseRecOn with
  | nil => exact initial
  | append_singleton before command ih =>
      have earlier := ih fun first one rest changed split =>
        step first one (rest ++ [command]) changed (by simp [split])
      have last := fun changed => step before command [] changed rfl earlier
      rw [replay_append, performed_append]
      generalize nfa.replay before = current at earlier last ⊢
      cases outcome : current.perform command with
      | error error => simpa [replay, attempt, performed, outcome] using earlier
      | ok changed => simpa [replay, attempt, performed, outcome] using last changed outcome

end NFA

end FiniteAutomata
