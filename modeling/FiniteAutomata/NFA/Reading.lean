import FiniteAutomata.NFA.Basic
import FiniteAutomata.Search

set_option autoImplicit false

/-!
What a nondeterministic automaton reads. Its position is the set of states that it can be in at once,
closed under silent steps. A step that leads to something that is no state is refused.
-/

namespace FiniteAutomata

namespace NFA

def closeSearch (nfa : NFA) : Search State where
  discipline := .newest
  successors state := nfa.graph.targets state nfa.epsilon
  admits _ _ := true

/-- The given states and all that silent steps lead to from them. -/
def close (nfa : NFA) (states : List State) : List State :=
  (nfa.closeSearch.run (states.length + nfa.graph.edges.length) states).found

def move (nfa : NFA) (states : List State) (label : Label) : List State :=
  -- the states that one step on `label` leads to, silent steps left out
  (states.flatMap fun state => nfa.graph.targets state label).foldl addNew []

def moved (nfa : NFA) (states : List State) (label : Label) : List Member :=
  Member.listed (states.flatMap fun state => nfa.graph.recorded state label)

def straySearch (nfa : NFA) : Search Member where
  -- closing takes members up one by one, the newest first, and comes to an end at one that is no state
  discipline := .newest
  successors member := member.state?.elim [] fun state => nfa.graph.recorded state nfa.epsilon
  admits _ _ := true
  halts member := member.state?.isNone

def stray? (nfa : NFA) (members : List Member) : Option Member :=
  (nfa.straySearch.run (members.length + nfa.graph.edges.length) members).refused

def checkStrays (nfa : NFA) (members : List Member) : Except Error Unit :=
  match nfa.stray? members with
  | none => .ok ()
  | some stray => .error (.lacksPart stray.kind "transitions")

def closed (nfa : NFA) (states : List State) : Except Error (List State) := do
  nfa.checkStrays (states.map .state)
  pure (nfa.close states)

def step (nfa : NFA) (states : List State) (label : Label) : Except Error (List State) := do
  -- one step on `label` and any number of silent ones after it
  nfa.checkStrays (nfa.moved states label)
  pure (nfa.close (nfa.move states label))

def start (nfa : NFA) : Except Error (List State) :=
  match nfa.initial with
  | some state => nfa.closed [state]
  | none => .error .noStart

def next (nfa : NFA) (states : List State) (symbol : Label) : Except Error (List State) := do
  checkSymbol nfa.epsilon symbol
  nfa.step states symbol

def isFinal (nfa : NFA) (states : List State) : Bool :=
  states.any nfa.finals.contains

def positionText (states : List State) : String :=
  match states with
  | [] => "frozenset()"
  | _ :: _ => "frozenset(\x7b" ++ ", ".intercalate (states.map State.quoted) ++ "\x7d)"

def machine (nfa : NFA) : Machine (List State) where
  start := nfa.start
  next := nfa.next
  isStuck _ := false
  isFinal states := .ok (nfa.isFinal states)
  plain := positionText

def accept (nfa : NFA) (word : List Label) : Except Error Bool :=
  nfa.machine.accept word

theorem next_epsilon (nfa : NFA) (states : List State) {symbol : Label}
    (silent : (symbol == nfa.epsilon) = true) :
    nfa.next states symbol = .error (.epsilonSymbol symbol) := by
  simp [next, checkSymbol, silent, bind, Except.bind]

theorem next_symbol (nfa : NFA) (states : List State) {symbol : Label}
    (real : (symbol == nfa.epsilon) = false) : nfa.next states symbol = nfa.step states symbol := by
  simp [next, checkSymbol, real, bind, Except.bind]

theorem stray?_of_sound {nfa : NFA} (sound : nfa.graph.Sound) (states : List State) :
    nfa.stray? (states.map .state) = none := by
  have recorded (source : State) : ∀ next ∈ nfa.graph.recorded source nfa.epsilon,
      next.state?.isSome = true := by
    rw [sound.recorded_eq]
    exact List.forall_mem_map.mpr fun _ _ => rfl
  refine Search.refused_run (P := fun member => member.state?.isSome = true) (fun _ _ _ => rfl)
    (fun member known => ?_) (fun member known => ?_) _ _ (by simp [Member.state?])
  · simpa [straySearch] using known
  · obtain ⟨source, found⟩ := Option.isSome_iff_exists.mp known
    simpa [straySearch, found] using recorded source

theorem checkStrays_of_sound {nfa : NFA} (sound : nfa.graph.Sound) (states : List State) :
    nfa.checkStrays (states.map .state) = .ok () := by
  rw [checkStrays, stray?_of_sound sound]

theorem moved_of_sound {nfa : NFA} (sound : nfa.graph.Sound) (states : List State) (label : Label) :
    nfa.moved states label =
      (states.flatMap fun state => nfa.graph.targets state label).eraseDups.map .state := by
  rw [← Member.listed_map_state, moved]
  simp [sound.recorded_eq, List.map_flatMap]

theorem closed_of_sound {nfa : NFA} (sound : nfa.graph.Sound) (states : List State) :
    nfa.closed states = .ok (nfa.close states) := by
  simp [closed, checkStrays_of_sound sound, bind, Except.bind, pure, Except.pure]

theorem start_of_sound {nfa : NFA} (sound : nfa.graph.Sound) {start : State} (started : nfa.initial = some start) :
    nfa.start = .ok (nfa.close [start]) := by
  simp [NFA.start, started, closed_of_sound sound]

theorem step_of_sound {nfa : NFA} (sound : nfa.graph.Sound) (states : List State) (label : Label) :
    nfa.step states label = .ok (nfa.close (nfa.move states label)) := by
  simp [step, moved_of_sound sound, checkStrays_of_sound sound, bind, Except.bind, pure, Except.pure]

end NFA

end FiniteAutomata
