import FiniteAutomata.Member.Order
import FiniteAutomata.NFA.Reading

set_option autoImplicit false

namespace FiniteAutomata

namespace NFA

def sortedStates (nfa : NFA) : List State :=
  sortOn State.name nfa.allStates

def targetNames (nfa : NFA) (source : State) (label : Label) : Except Error (List Piece) := do
  -- the names of all that a label leads to, sorted
  (← Member.sorted (nfa.graph.recorded source label)).mapM Member.nameOf

def triplesOn (nfa : NFA) (source : State) (label : Label) :
    Except Error (List (String × Label × String)) := do
  let names ← Piece.texts (← nfa.targetNames source label)
  pure (names.map fun name => (source.name, label, name))

/-- The edges that leave the states which names stand for now, silent steps among them. -/
def triples (nfa : NFA) : Except Error (List (String × Label × String)) := do
  let perSource ← nfa.sortedStates.mapM fun source =>
    (nfa.graph.labels source).mapM (nfa.triplesOn source)
  pure perSource.flatten.flatten

def headingLine (nfa : NFA) (source : State) : String :=
  (if nfa.initial.any (source == ·) then "@ " else "  ") ++ source.name ++ " " ++
    (if nfa.isFinal [source] then "||" else "") ++ "\n"

def edgeLine (nfa : NFA) (source : State) (label : Label) : Except Error String := do
  pure ("   " ++ label.plain ++ " -> " ++
    (← Piece.join ", " (← nfa.targetNames source label)) ++ "\n")

def dump (nfa : NFA) : Except Error String := do
  -- the start is marked with `@` and final states with `||`
  let perSource ← nfa.sortedStates.mapM fun source => do
    pure (nfa.headingLine source :: (← (nfa.graph.labels source).mapM (nfa.edgeLine source)))
  pure ("".intercalate perSource.flatten)

theorem targetNames_of_sound {nfa : NFA} (sound : nfa.graph.Sound) (source : State)
    (label : Label) : nfa.targetNames source label =
      .ok (((sortOn State.name (nfa.graph.targets source label)).map State.name).map .ok) := by
  rw [targetNames, sound.recorded_eq, Member.sorted_map_state]
  induction sortOn State.name (nfa.graph.targets source label) with
  | nil => rfl
  | cons head tail ih =>
      simp only [bind, Except.bind] at ih ⊢
      simp [List.mapM_cons, ih, bind, Except.bind, pure, Except.pure]

end NFA

end FiniteAutomata
