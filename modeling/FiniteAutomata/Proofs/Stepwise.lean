import FiniteAutomata.DFA.Command
import FiniteAutomata.NFA.Command

set_option autoImplicit false

/-!
Calls that change an automaton as they are carried out, one change after another. What a call has changed before it is
refused stays changed. Each call makes all its checks before its first change, so that it comes to the same as one
that changes everything at once or nothing.
-/

namespace FiniteAutomata

section Calls

variable {σ : Type}

/-- How a call ends that makes its changes at once. -/
def atOnce (before : σ) : Except Error σ → EStateM.Result Error σ Unit
  | .ok changed => .ok () changed
  | .error error => .error error before

theorem atOnce_eq_ok_iff (before after : σ) (outcome : Except Error σ) :
    atOnce before outcome = .ok () after ↔ outcome = .ok after := by
  cases outcome <;> simp [atOnce]

theorem atOnce_eq_error_iff (before left : σ) (outcome : Except Error σ) (error : Error) :
    atOnce before outcome = .error error left ↔ outcome = .error error ∧ left = before := by
  cases outcome <;> simp [atOnce, eq_comm]

/-- A check can come first in a call that makes its changes at once. -/
theorem ofExcept_bind_eq {α : Type} {outcome : Except Error α} {next : α → EStateM Error σ Unit}
    {rest : α → Except Error σ} {before : σ} (whole : ∀ value, next value before = atOnce before (rest value)) :
    (ofExcept outcome >>= next : EStateM Error σ Unit) before = atOnce before (outcome >>= rest) := by
  cases outcome with
  | error error => rfl
  | ok value => exact whole value

/-- What there is after a call, refused or not. -/
def leaves : EStateM.Result Error σ Unit → σ
  | .ok _ after => after
  | .error _ left => left

/-- Carries on after calls that are refused, with what they have left. -/
def carryOn {Command : Type} (call : Command → EStateM Error σ Unit) (commands : List Command) (before : σ) : σ :=
  commands.foldl (fun reached command => leaves (call command reached)) before

end Calls

namespace DFA

def carryOut : Command → EStateM Error DFA Unit
  | .addState name members => modify fun dfa => dfa.addState name members
  | .addFinal name members => do
      modify fun dfa => dfa.addState name members
      modify fun dfa => { dfa with finals := addNew dfa.finals name }
  | .addSymbol symbol => do
      let dfa ← get
      ofExcept (checkSymbol dfa.epsilon symbol)
      modify fun dfa => { dfa with alphabet := addNew dfa.alphabet symbol }
  | .addTransition source symbol target => do
      let dfa ← get
      ofExcept (checkSymbol dfa.epsilon symbol)
      ofExcept (dfa.checkState source)
      ofExcept (dfa.checkState target)
      modify fun dfa => { dfa with alphabet := addNew dfa.alphabet symbol }
      modify fun dfa => { dfa with
        states := dfa.states.modify source fun node => { node with moves := node.moves.put symbol target } }

theorem carryOut_eq (command : Command) (dfa : DFA) :
    carryOut command dfa = atOnce dfa (dfa.perform command) := by
  cases command with
  | addState name members | addFinal name members => rfl
  | addSymbol symbol => exact ofExcept_bind_eq fun _ => rfl
  | addTransition source symbol target =>
      exact ofExcept_bind_eq fun _ => ofExcept_bind_eq fun _ => ofExcept_bind_eq fun _ => rfl

theorem carryOn_eq_replay (commands : List Command) (dfa : DFA) :
    carryOn carryOut commands dfa = dfa.replay commands := by
  have step : (fun (reached : DFA) command => leaves (carryOut command reached)) = attempt := by
    funext reached command
    rw [carryOut_eq, attempt]
    cases reached.perform command <;> rfl
  rw [carryOn, step, replay]

end DFA

namespace NFA

/-- Makes a state and then takes it in. -/
def declare (name : Label) (place : State → NFA → NFA) : EStateM Error NFA Unit := do
  let nfa ← get
  let (state, graph) ← ofExcept (nfa.graph.newState name)
  modify fun nfa => { nfa with graph }
  modify (place state)

def carryOut : Command → EStateM Error NFA Unit
  | .setStart name => declare name fun state nfa => { nfa with initial := some state }
  | .addState name => declare name fun state nfa => { nfa with ordinary := addNew nfa.ordinary state }
  | .addFinal name => declare name fun state nfa => { nfa with finals := addNew nfa.finals state }
  | .addSymbol symbol => do
      let nfa ← get
      ofExcept (checkSymbol nfa.epsilon symbol)
      modify fun nfa => { nfa with alphabet := addNew nfa.alphabet symbol }
  | .addTransition source label target => do
      let nfa ← get
      let origin ← ofExcept (nfa.find source)
      let goal ← ofExcept (nfa.find target)
      unless label == nfa.epsilon do
        modify fun nfa => { nfa with alphabet := addNew nfa.alphabet label }
      modify fun nfa => { nfa with graph := nfa.graph.connect origin label goal }

theorem carryOut_eq (command : Command) (nfa : NFA) :
    carryOut command nfa = atOnce nfa (nfa.perform command) := by
  cases command with
  | setStart name | addState name | addFinal name => exact ofExcept_bind_eq fun _ => rfl
  | addSymbol symbol => exact ofExcept_bind_eq fun _ => rfl
  | addTransition source label target =>
      refine ofExcept_bind_eq fun origin => ofExcept_bind_eq fun goal => ?_
      cases label == nfa.epsilon <;> rfl

theorem carryOn_eq_replay (commands : List Command) (nfa : NFA) :
    carryOn carryOut commands nfa = nfa.replay commands := by
  have step : (fun (reached : NFA) command => leaves (carryOut command reached)) = attempt := by
    funext reached command
    rw [carryOut_eq, attempt]
    cases reached.perform command <;> rfl
  rw [carryOn, step, replay]

end NFA

end FiniteAutomata
