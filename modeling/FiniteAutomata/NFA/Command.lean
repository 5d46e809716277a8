import FiniteAutomata.NFA.Basic

set_option autoImplicit false

/-!
The calls that change a nondeterministic automaton, as data. A call that is refused changes nothing.
-/

namespace FiniteAutomata

namespace NFA

inductive Command where
  | setStart (name : Label)
  | addState (name : Label)
  | addFinal (name : Label)
  | addSymbol (symbol : Label)
  | addTransition (source label target : Label)

def perform (nfa : NFA) : Command → Except Error NFA
  | .setStart name => nfa.setStart name
  | .addState name => nfa.addState name
  | .addFinal name => nfa.addFinal name
  | .addSymbol symbol => nfa.addSymbol symbol
  | .addTransition source label target => nfa.addTransition source label target

def attempt (nfa : NFA) (command : Command) : NFA :=
  match nfa.perform command with
  | .ok changed => changed
  | .error _ => nfa

/-- Carries on after calls that are refused. -/
def replay (nfa : NFA) (commands : List Command) : NFA :=
  commands.foldl attempt nfa

def performAll (nfa : NFA) (commands : List Command) : Except Error NFA :=
  commands.foldlM perform nfa

def performAllEvents (nfa : NFA) : List Command → List Event
  | [] => []
  | command :: rest =>
      match nfa.perform command with
      | .ok changed => changed.performAllEvents rest
      | .error error => nfa.errorEvents error

@[simp] theorem replay_nil (nfa : NFA) : nfa.replay [] = nfa := rfl

@[simp] theorem replay_append (nfa : NFA) (first second : List Command) :
    nfa.replay (first ++ second) = (nfa.replay first).replay second := by
  simp [replay]

theorem replay_eq_of_performAll {nfa built : NFA} {commands : List Command}
    (success : nfa.performAll commands = .ok built) : nfa.replay commands = built := by
  induction commands generalizing nfa with
  | nil => exact Except.ok.inj success
  | cons command rest ih =>
      cases step : nfa.perform command with
      | error error => simp [performAll, step, bind, Except.bind] at success
      | ok changed =>
          simp only [performAll, List.foldlM_cons, step, bind, Except.bind] at success
          simpa [replay, attempt, step] using ih success

theorem sound_perform {nfa changed : NFA} {command : Command} (sound : nfa.graph.Sound)
    (success : nfa.perform command = .ok changed) : changed.graph.Sound := by
  cases command with
  | setStart name | addState name | addFinal name =>
      cases created : nfa.graph.newState name with
      | error error =>
          simp [perform, setStart, addState, addFinal, created, bind, Except.bind] at success
      | ok pair =>
          obtain ⟨state, graph⟩ := pair
          simp only [perform, setStart, addState, addFinal, created, bind, Except.bind, pure,
            Except.pure, Except.ok.injEq] at success
          rw [← success]
          exact sound.newState created
  | addSymbol symbol =>
      cases checked : checkSymbol nfa.epsilon symbol with
      | error error => simp [perform, addSymbol, checked, bind, Except.bind] at success
      | ok _ =>
          simp only [perform, addSymbol, checked, bind, Except.bind, pure, Except.pure,
            Except.ok.injEq] at success
          rw [← success]
          exact sound
  | addTransition source label target =>
      cases origin : nfa.find source with
      | error error => simp [perform, addTransition, origin, bind, Except.bind] at success
      | ok sourceState =>
          cases goal : nfa.find target with
          | error error => simp [perform, addTransition, origin, goal, bind, Except.bind] at success
          | ok targetState =>
              simp only [perform, addTransition, origin, goal, bind, Except.bind, pure, Except.pure,
                Except.ok.injEq] at success
              rw [← success]
              exact sound.connect sourceState label targetState

theorem sound_replay {nfa : NFA} (sound : nfa.graph.Sound) (commands : List Command) :
    (nfa.replay commands).graph.Sound := by
  induction commands generalizing nfa with
  | nil => exact sound
  | cons command rest ih =>
      have kept : (nfa.attempt command).graph.Sound := by
        unfold attempt
        split
        · rename_i changed success
          exact sound_perform sound success
        · exact sound
      exact ih kept

end NFA

end FiniteAutomata
