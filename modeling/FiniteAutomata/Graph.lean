import FiniteAutomata.Member.Listing

set_option autoImplicit false

/-!
The edges between states, in the order in which they were recorded. An edge belongs to one state, not to a
name: a state that takes over a name starts without edges. Edges that are recorded directly can lead astray,
to something that is no state, or nowhere.
-/

namespace FiniteAutomata

structure Edge where
  source : Nat
  label : Label
  target : Option Member

namespace Edge

def state? (edge : Edge) : Option State := edge.target.bind Member.state?

def leads (edge : Edge) (source : State) (label : Label) : Bool :=
  edge.source == source.serial && edge.label == label

end Edge

/-- The states with serial numbers below `next` are in use. -/
structure Graph where
  next : Nat
  edges : List Edge

namespace Graph

def empty : Graph := ⟨0, []⟩

def newState (graph : Graph) (name : Label) : Except Error (State × Graph) := do
  let state ← State.ofLabel graph.next name
  pure (state, { graph with next := graph.next + 1 })

def recorded (graph : Graph) (source : State) (label : Label) : List Member :=
  Member.inPlace ((graph.edges.filter fun edge => edge.leads source label).filterMap Edge.target)

def targets (graph : Graph) (source : State) (label : Label) : List State :=
  (graph.edges.filter fun edge => edge.leads source label).filterMap Edge.state?

@[simp] theorem mem_targets (graph : Graph) (source target : State) (label : Label) :
    target ∈ graph.targets source label ↔
      ∃ edge ∈ graph.edges,
        (edge.source = source.serial ∧ (edge.label == label) = true) ∧ edge.state? = some target := by
  simp [targets, Edge.leads, and_assoc]

def labels (graph : Graph) (source : State) : List Label :=
  -- the labels on the edges of a state, each in the form first recorded
  ((graph.edges.filter fun edge => edge.source == source.serial).map Edge.label).foldl addNew []

def add (graph : Graph) (source : State) (label : Label) (target : Option Member) : Graph :=
  { graph with edges := graph.edges ++ [⟨source.serial, label, target⟩] }

def connect (graph : Graph) (source : State) (label : Label) (target : State) : Graph :=
  -- an edge to a state of a name that the label leads to already is not recorded again
  if (graph.targets source label).contains target then graph
  else graph.add source label (some (.state target))

def attach (graph : Graph) (source : State) (label : Label) : Option Member → Graph
  -- records an edge whose target may be missing: its label is recorded all the same
  | none => graph.add source label none
  | some (.state target) => graph.connect source label target
  | some stray =>
      if (graph.recorded source label).contains stray then graph
      else graph.add source label (some stray)

theorem targets_congr (graph : Graph) {source other : State} {label symbol : Label}
    (serials : source.serial = other.serial) (equal : (label == symbol) = true) :
    graph.targets source label = graph.targets other symbol := by
  simp only [targets, Edge.leads, serials, BEq.congr_right equal]

theorem targets_add (graph : Graph) (source target : State) (label : Label) (origin : State)
    (symbol : Label) :
    (graph.add source label (some (.state target))).targets origin symbol =
      graph.targets origin symbol ++
        if source.serial == origin.serial && label == symbol then [target] else [] := by
  by_cases here : (source.serial == origin.serial && label == symbol) = true <;>
    simp [targets, add, Edge.leads, Edge.state?, Member.state?, List.filter_append, here]

theorem exists_target_connect (graph : Graph) (source target : State) (label : Label) (origin : State)
    (symbol : Label) (name : String) :
    (∃ other ∈ (graph.connect source label target).targets origin symbol, other.name = name) ↔
      (∃ other ∈ graph.targets origin symbol, other.name = name) ∨
        (source.serial = origin.serial ∧ (label == symbol) = true) ∧ target.name = name := by
  unfold connect
  split
  · rename_i present
    obtain ⟨known, here, equal⟩ := (State.contains_iff ..).mp present
    refine ⟨.inl, ?_⟩
    rintro (old | ⟨leads, named⟩)
    · exact old
    · rw [graph.targets_congr leads.1 leads.2] at here
      exact ⟨known, here, equal.trans named⟩
  · rw [targets_add]
    by_cases here : source.serial = origin.serial ∧ (label == symbol) = true
    · simp [here, or_and_right, exists_or]
    · have elsewhere : (source.serial == origin.serial && label == symbol) = false := by simpa using here
      simp only [elsewhere, if_false, Bool.false_eq_true, List.append_nil]
      exact ⟨.inl, fun either => either.resolve_right fun new => here new.1⟩

theorem mem_edges_connect {graph : Graph} {source target : State} {label : Label} {edge : Edge}
    (present : edge ∈ (graph.connect source label target).edges) :
    edge ∈ graph.edges ∨ edge = ⟨source.serial, label, some (.state target)⟩ := by
  unfold connect at present
  split at present
  · exact .inl present
  · simpa [add] using present

/-- No edge leads astray. -/
def Sound (graph : Graph) : Prop :=
  ∀ edge ∈ graph.edges, ∃ target, edge.target = some (.state target)

theorem sound_empty : empty.Sound := by
  simp [Sound, empty]

theorem Sound.newState {graph changed : Graph} {name : Label} {state : State} (sound : graph.Sound)
    (created : graph.newState name = .ok (state, changed)) : changed.Sound := by
  unfold Graph.newState at created
  cases known : State.ofLabel graph.next name with
  | error error => simp [known, bind, Except.bind] at created
  | ok found =>
      simp only [known, bind, Except.bind, pure, Except.pure, Except.ok.injEq, Prod.mk.injEq] at created
      rw [← created.2]
      exact sound

theorem Sound.connect {graph : Graph} (sound : graph.Sound) (source : State) (label : Label)
    (target : State) : (graph.connect source label target).Sound := by
  unfold Graph.connect
  split
  · exact sound
  · intro edge present
    rcases List.mem_append.mp present with present | present
    · exact sound edge present
    · exact ⟨target, by simp_all⟩

theorem Sound.recorded_eq {graph : Graph} (sound : graph.Sound) (source : State) (label : Label) :
    graph.recorded source label = (graph.targets source label).map .state := by
  have states : (graph.edges.filter fun edge => edge.leads source label).filterMap Edge.target =
      (graph.targets source label).map .state := by
    obtain ⟨next, edges⟩ := graph
    simp only [targets]
    induction edges with
    | nil => rfl
    | cons edge rest ih =>
        obtain ⟨target, equal⟩ := sound edge (List.mem_cons_self ..)
        have later := ih fun other present => sound other (List.mem_cons_of_mem _ present)
        by_cases leads : edge.leads source label = true <;>
          simp [leads, equal, Edge.state?, Member.state?, later]
  rw [recorded, states, Member.inPlace_map_state]

end Graph

end FiniteAutomata
