import FiniteAutomata.NFA.Listing
import FiniteAutomata.NFA.Request
import FiniteAutomata.Proofs.NFA.Stability
import FiniteAutomata.Proofs.Tables

set_option autoImplicit false

/-!
The edges that an automaton shows, by names: those that leave the states which names stand for now. Where a name
leads on a label is asked in the same terms.
-/

namespace FiniteAutomata

/-- The name by which a label or a state is looked up. -/
def Operand.name? : Operand → Option Label
  | .member (.label name) => some name
  | .member (.state state) => some (.text state.name)
  | _ => none

namespace Graph

variable {graph : Graph} {state : State}

theorem contains_labels_iff (graph : Graph) (state : State) (symbol : Label) :
    (graph.labels state).contains symbol = true ↔
      ∃ edge ∈ graph.edges, edge.source = state.serial ∧ (edge.label == symbol) = true := by
  rw [labels, contains_foldl_addNew, List.contains_nil, Bool.false_or, List.contains_iff_exists_mem_beq]
  constructor
  · rintro ⟨_, recorded, same⟩
    obtain ⟨edge, leaves, rfl⟩ := List.mem_map.mp recorded
    obtain ⟨present, source⟩ := List.mem_filter.mp leaves
    exact ⟨edge, present, by simpa using source, BEq.symm same⟩
  · rintro ⟨edge, present, source, same⟩
    have leaves : edge ∈ graph.edges.filter fun edge => edge.source == state.serial :=
      List.mem_filter.mpr ⟨present, by simpa using source⟩
    exact ⟨edge.label, List.mem_map_of_mem leaves, BEq.symm same⟩

theorem exists_label_of_target {target : State} {symbol : Label} (leads : target ∈ graph.targets state symbol) :
    ∃ label ∈ graph.labels state, (label == symbol) = true := by
  obtain ⟨edge, present, ⟨source, same⟩, -⟩ := (mem_targets ..).mp leads
  have known := (graph.contains_labels_iff state symbol).mpr ⟨edge, present, source, same⟩
  obtain ⟨label, here, equal⟩ := List.contains_iff_exists_mem_beq.mp known
  exact ⟨label, here, BEq.symm equal⟩

end Graph

namespace NFA

variable {nfa : NFA}

theorem mem_allStates_iff (nfa : NFA) (state : State) : state ∈ nfa.allStates ↔ nfa.Current state := by
  rw [allStates, mem_foldl_addNew_iff, Current, find?]
  simp

/-- The triple is one of those that the automaton gives for its edges. -/
def Shows (nfa : NFA) (triple : String × Label × String) : Prop :=
  ∃ triples, nfa.triples = .ok triples ∧ triple ∈ triples

def successorNames (nfa : NFA) (operand : Operand) (symbol : Label) : Except Error (List String) := do
  Member.namesOf (← nfa.successors operand symbol)

section Sound

variable (sound : nfa.graph.Sound)
include sound

theorem triplesOn_of_sound (source : State) (label : Label) : nfa.triplesOn source label =
    .ok ((sortOn State.name (nfa.graph.targets source label)).map fun target =>
      (source.name, label, target.name)) := by
  have names : Piece.texts (((sortOn State.name (nfa.graph.targets source label)).map State.name).map .ok) =
      .ok ((sortOn State.name (nfa.graph.targets source label)).map State.name) := Piece.texts_map_ok _
  simp only [triplesOn, targetNames_of_sound sound, names, bind, Except.bind, pure, Except.pure]
  rw [List.map_map]
  rfl

theorem triples_of_sound : nfa.triples = .ok (nfa.sortedStates.flatMap fun source =>
    (nfa.graph.labels source).flatMap fun label =>
      (sortOn State.name (nfa.graph.targets source label)).map fun target =>
        (source.name, label, target.name)) := by
  have perLabel (source : State) : (nfa.graph.labels source).mapM (nfa.triplesOn source) =
      .ok ((nfa.graph.labels source).map fun label =>
        (sortOn State.name (nfa.graph.targets source label)).map fun target =>
          (source.name, label, target.name)) := by
    rw [funext (triplesOn_of_sound sound source)]
    exact List.mapM_pure
  have perSource : nfa.sortedStates.mapM (fun source => (nfa.graph.labels source).mapM (nfa.triplesOn source)) =
      .ok (nfa.sortedStates.map fun source => (nfa.graph.labels source).map fun label =>
        (sortOn State.name (nfa.graph.targets source label)).map fun target =>
          (source.name, label, target.name)) := by
    rw [funext perLabel]
    exact List.mapM_pure
  simp only [triples, perSource, bind, Except.bind, pure, Except.pure, List.flatten_flatten, List.flatMap_def,
    List.map_map, Function.comp_def]

theorem shows_iff (source target : String) (label : Label) : nfa.Shows (source, label, target) ↔
    ∃ origin, nfa.Current origin ∧ origin.name = source ∧ label ∈ nfa.graph.labels origin ∧
      ∃ goal ∈ nfa.graph.targets origin label, goal.name = target := by
  have listed (origin : State) : origin ∈ nfa.sortedStates ↔ nfa.Current origin := by
    rw [sortedStates, mem_sortOn, mem_allStates_iff]
  simp only [Shows, triples_of_sound sound, Except.ok.injEq, exists_eq_left', List.mem_flatMap, listed,
    List.mem_map, mem_sortOn, Prod.mk.injEq]
  constructor
  · rintro ⟨origin, current, _, known, goal, leads, rfl, rfl, rfl⟩
    exact ⟨origin, current, rfl, known, goal, leads, rfl⟩
  · rintro ⟨origin, current, rfl, known, goal, leads, rfl⟩
    exact ⟨origin, current, label, known, goal, leads, rfl, rfl, rfl⟩

theorem exists_target_iff_shows {origin : State} (current : nfa.Current origin) (symbol : Label) (target : String) :
    (∃ goal ∈ nfa.graph.targets origin symbol, goal.name = target) ↔
      ∃ label, (label == symbol) = true ∧ nfa.Shows (origin.name, label, target) := by
  constructor
  · rintro ⟨goal, leads, named⟩
    obtain ⟨label, known, same⟩ := Graph.exists_label_of_target leads
    rw [← nfa.graph.targets_congr rfl same] at leads
    exact ⟨label, same, (shows_iff sound ..).mpr ⟨origin, current, rfl, known, goal, leads, named⟩⟩
  · rintro ⟨label, same, shown⟩
    obtain ⟨other, otherCurrent, name, -, goal, leads, named⟩ := (shows_iff sound ..).mp shown
    obtain rfl := otherCurrent.eq current name
    rw [nfa.graph.targets_congr rfl same] at leads
    exact ⟨goal, leads, named⟩

theorem successorNames_of_resolve {operand : Operand} {state : State} (resolved : nfa.resolve operand = .ok state)
    {symbol : Label} (real : (symbol == nfa.epsilon) = false) :
    nfa.successorNames operand symbol = .ok ((nfa.graph.targets state symbol).map State.name) := by
  simp only [successorNames, successors, checkSymbol, real, resolved, sound.recorded_eq, bind, Except.bind, pure,
    Except.pure, Bool.false_eq_true, if_false]
  exact Member.namesOf_map_state _

end Sound

theorem resolve_eq_ok_iff (nfa : NFA) (operand : Operand) (state : State) :
    nfa.resolve operand = .ok state ↔ operand.name? = some (.text state.name) ∧ nfa.Current state := by
  have looked (name : Label) : nfa.find name = .ok state ↔ name = .text state.name ∧ nfa.Current state := by
    rw [find_eq_ok_iff]
    constructor
    · intro found
      obtain ⟨current, named⟩ := current_of_find? found
      exact ⟨named, current⟩
    · rintro ⟨rfl, current⟩
      exact current
  have refused (quoted : Except Error String) :
      (quoted >>= fun text => .error (.unknownObject text)) ≠ Except.ok state := by
    cases quoted <;> simp [bind, Except.bind]
  cases operand with
  | dfa other => simp [resolve, Operand.asMember, Operand.name?, bind, Except.bind]
  | member member =>
      cases member with
      | label name => exact (looked name).trans (by simp [Operand.name?])
      | state known => exact (looked (.text known.name)).trans (by simp [Operand.name?])
      | set members name => exact iff_of_false (refused _) (by simp [Operand.name?])
      | object kind identity quoted => exact iff_of_false (refused (.ok quoted)) (by simp [Operand.name?])

theorem exists_resolve_of_find? {operand : Operand} {name : Label} (named : operand.name? = some name)
    (known : (nfa.find? name).isSome = true) : ∃ state, nfa.resolve operand = .ok state ∧ name = .text state.name := by
  obtain ⟨state, found⟩ := Option.isSome_iff_exists.mp known
  obtain ⟨current, rfl⟩ := current_of_find? found
  exact ⟨state, (nfa.resolve_eq_ok_iff operand state).mpr ⟨named, current⟩, rfl⟩

theorem exists_successorNames (sound : nfa.graph.Sound) {operand : Operand} {name : String}
    (named : operand.name? = some (.text name)) (known : (nfa.find? (.text name)).isSome = true) {symbol : Label}
    (real : (symbol == nfa.epsilon) = false) : ∃ names, nfa.successorNames operand symbol = .ok names ∧
      ∀ target, target ∈ names ↔ ∃ label, (label == symbol) = true ∧ nfa.Shows (name, label, target) := by
  obtain ⟨state, resolved, equal⟩ := exists_resolve_of_find? named known
  obtain rfl := Label.text.inj equal
  have current := ((nfa.resolve_eq_ok_iff operand state).mp resolved).2
  refine ⟨_, successorNames_of_resolve sound resolved real, fun target => ?_⟩
  rw [List.mem_map, exists_target_iff_shows sound current]

end NFA

end FiniteAutomata
