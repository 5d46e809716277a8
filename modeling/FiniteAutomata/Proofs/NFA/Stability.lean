import FiniteAutomata.Proofs.NFA.Runs

set_option autoImplicit false

/-!
Runs in which, once there is an edge, no call changes the state that a name stands for. What such a run leaves
behind is coherent: edges join states that their names stand for now, and they are those that were asked for.
-/

namespace FiniteAutomata

namespace NFA

/-- A transition was added by one of the calls. -/
def Linked (done : List Command) : Prop :=
  ∃ source label target, .addTransition source label target ∈ done

/-- From the first transition on, each name goes on to stand for the state that it stood for. -/
def NameStable (nfa : NFA) (commands : List Command) : Prop :=
  ∀ before command after, commands = before ++ command :: after → Linked (nfa.performed before) →
    ∀ name state, (nfa.replay before).find? name = some state →
      ((nfa.replay before).attempt command).find? name = some state

/-- The state is the one that its name stands for. -/
def Current (nfa : NFA) (state : State) : Prop :=
  nfa.find? (.text state.name) = some state

/-- Edges join states that their names stand for. -/
def Coherent (nfa : NFA) : Prop :=
  ∀ edge ∈ nfa.graph.edges, ∃ source target, nfa.Current source ∧ edge.source = source.serial ∧
    edge.target = some (.state target) ∧ nfa.Current target

/-- The edges are those that the calls asked for. -/
structure Faithful (nfa : NFA) (done : List Command) : Prop where
  coherent : nfa.Coherent
  resolved : ∀ source label target, .addTransition source label target ∈ done →
    (nfa.find? source).isSome = true ∧ (nfa.find? target).isSome = true
  recorded : ∀ source, nfa.Current source → ∀ label name,
    (∃ target ∈ nfa.graph.targets source label, target.name = name) ↔
      ∃ spelled, (spelled == label) = true ∧ .addTransition (.text source.name) spelled (.text name) ∈ done

variable {nfa changed : NFA} {done : List Command}

theorem current_of_find? {name : Label} {state : State} (found : nfa.find? name = some state) :
    nfa.Current state ∧ name = .text state.name := by
  have written := (mem_declared_of_find? found).2
  rw [written] at found
  exact ⟨found, written⟩

theorem find?_of_perform {command : Command} (success : nfa.perform command = .ok changed)
    (start : ∀ name, command ≠ .setStart name) (final : ∀ name, command ≠ .addFinal name)
    {name : Label} {state : State} (found : nfa.find? name = some state) :
    changed.find? name = some state := by
  cases effect_of_perform success with
  | setStart text => exact absurd rfl (start (.text text))
  | addFinal text => exact absurd rfl (final (.text text))
  | addState text filled =>
      simp only [find?, declared, addNew] at found ⊢
      split
      · exact found
      · rw [← List.append_assoc, List.find?_append, found, Option.some_or]
  | addSymbol | addTransition => exact found

theorem nameStable_append {first later : List Command}
    (unlinked : ∀ source label target, .addTransition source label target ∉ first)
    (start : ∀ name, .setStart name ∉ later) (final : ∀ name, .addFinal name ∉ later) :
    nfa.NameStable (first ++ later) := by
  -- a run is stable if it declares the start and the final states before it adds a transition
  intro before command after split linked name state found
  obtain ⟨source, label, target, asked⟩ := linked
  have early := mem_of_mem_performed asked
  have here : command ∈ later := by
    rcases List.append_eq_append_iff.mp split with ⟨between, -, rest⟩ | ⟨between, rest, -⟩
    · simp [rest]
    · exact absurd (rest ▸ List.mem_append_left between early) (unlinked source label target)
  unfold attempt
  split
  · rename_i changed success
    have starts : ∀ name, command ≠ .setStart name := fun name equal => start name (equal ▸ here)
    have ends : ∀ name, command ≠ .addFinal name := fun name equal => final name (equal ▸ here)
    exact find?_of_perform success starts ends found
  · exact found

theorem Current.declared {state : State} (current : nfa.Current state) : state ∈ nfa.declared :=
  (mem_declared_of_find? current).1

theorem Current.eq {left right : State} (leftCurrent : nfa.Current left) (rightCurrent : nfa.Current right)
    (same : left.name = right.name) : left = right := by
  unfold Current at leftCurrent rightCurrent
  rw [same, rightCurrent] at leftCurrent
  exact (Option.some.inj leftCurrent).symm

theorem mem_iff_of_names {left right : List State} (leftCurrent : ∀ state ∈ left, nfa.Current state)
    (rightCurrent : ∀ state ∈ right, nfa.Current state)
    (names : ∀ name, (∃ state ∈ left, state.name = name) ↔ ∃ state ∈ right, state.name = name)
    (state : State) : state ∈ left ↔ state ∈ right := by
  constructor
  · intro present
    obtain ⟨other, otherPresent, same⟩ := (names state.name).mp ⟨state, present, rfl⟩
    exact (rightCurrent other otherPresent).eq (leftCurrent state present) same ▸ otherPresent
  · intro present
    obtain ⟨other, otherPresent, same⟩ := (names state.name).mpr ⟨state, present, rfl⟩
    exact (leftCurrent other otherPresent).eq (rightCurrent state present) same ▸ otherPresent

theorem current_initial {start : State} (started : nfa.initial = some start) : nfa.Current start := by
  -- the start is looked up first, so that it hides any other state of its name
  simp [Current, find?, NFA.declared, started]

theorem Coherent.current_target (coherent : nfa.Coherent) {source target : State} {label : Label}
    (leads : target ∈ nfa.graph.targets source label) : nfa.Current target := by
  obtain ⟨edge, recorded, -, here⟩ := (Graph.mem_targets ..).mp leads
  obtain ⟨_, other, -, -, equal, current⟩ := coherent edge recorded
  obtain rfl : other = target := by simpa [Edge.state?, equal, Member.state?] using here
  exact current

theorem Faithful.linked (faithful : nfa.Faithful done) {edge : Edge} (present : edge ∈ nfa.graph.edges) :
    Linked done := by
  obtain ⟨source, target, current, origin, goal, -⟩ := faithful.coherent edge present
  have leads : target ∈ nfa.graph.targets source edge.label := by
    refine (Graph.mem_targets ..).mpr ⟨edge, present, ⟨origin, BEq.rfl⟩, ?_⟩
    simp [Edge.state?, goal, Member.state?]
  obtain ⟨spelled, -, asked⟩ :=
    (faithful.recorded source current edge.label target.name).mp ⟨target, leads, rfl⟩
  exact ⟨_, _, _, asked⟩

theorem Faithful.keep {command : Command} (faithful : nfa.Faithful done) (regular : nfa.Regular)
    (edges : changed.graph.edges = nfa.graph.edges)
    (known : ∀ state ∈ changed.declared, state ∈ nfa.declared ∨ state.serial = nfa.graph.next)
    (other : ∀ source label target, command ≠ .addTransition source label target)
    (keeps : Linked done → ∀ name state, nfa.find? name = some state → changed.find? name = some state) :
    changed.Faithful (done ++ [command]) := by
  -- a call that adds no edge leaves the edges as they were asked for, if names go on to stand for the same
  have asked (source label target : Label) :
      .addTransition source label target ∈ done ++ [command] ↔ .addTransition source label target ∈ done := by
    simp [(other source label target).symm]
  have targets (source : State) (label : Label) :
      changed.graph.targets source label = nfa.graph.targets source label := by
    simp [Graph.targets, edges]
  refine ⟨?_, ?_, ?_⟩
  · intro edge present
    rw [edges] at present
    have still := keeps (faithful.linked present)
    obtain ⟨source, target, current, origin, goal, reached⟩ := faithful.coherent edge present
    exact ⟨source, target, still _ _ current, origin, goal, still _ _ reached⟩
  · intro source label target present
    rw [asked] at present
    have still := keeps ⟨source, label, target, present⟩
    obtain ⟨sourceFound, targetFound⟩ := faithful.resolved source label target present
    obtain ⟨origin, sourceIs⟩ := Option.isSome_iff_exists.mp sourceFound
    obtain ⟨goal, targetIs⟩ := Option.isSome_iff_exists.mp targetFound
    simp [still _ _ sourceIs, still _ _ targetIs]
  · intro source current label name
    simp only [targets, asked]
    cases found : nfa.find? (.text source.name) with
    | some earlier =>
        constructor
        · rintro ⟨target, leads, named⟩
          obtain ⟨edge, present, -⟩ := (Graph.mem_targets ..).mp leads
          have same := (keeps (faithful.linked present) _ _ found).symm.trans current
          obtain rfl := Option.some.inj same
          exact (faithful.recorded _ found label name).mp ⟨target, leads, named⟩
        · rintro ⟨spelled, equal, present⟩
          have same := (keeps ⟨_, _, _, present⟩ _ _ found).symm.trans current
          obtain rfl := Option.some.inj same
          exact (faithful.recorded _ found label name).mpr ⟨spelled, equal, present⟩
    | none =>
        -- the name is new, so that no edge leaves its state and none was asked for
        have unknown : source ∉ nfa.declared := fun present => by
          simpa using List.find?_eq_none.mp found source present
        have fresh := (known source current.declared).resolve_left unknown
        constructor
        · rintro ⟨target, leads, -⟩
          obtain ⟨edge, present, ⟨origin, -⟩, -⟩ := (Graph.mem_targets ..).mp leads
          have below := regular.rooted edge present
          omega
        · rintro ⟨spelled, -, present⟩
          have resolves := (faithful.resolved _ _ _ present).1
          simp [found] at resolves

theorem Faithful.connect {source label target : Label} {origin goal : State} (faithful : nfa.Faithful done)
    (regular : nfa.Regular) (sourceFound : nfa.find? source = some origin)
    (targetFound : nfa.find? target = some goal) :
    Faithful { nfa with
      alphabet := if label == nfa.epsilon then nfa.alphabet else addNew nfa.alphabet label
      graph := nfa.graph.connect origin label goal } (done ++ [.addTransition source label target]) := by
  obtain ⟨originCurrent, rfl⟩ := current_of_find? sourceFound
  obtain ⟨goalCurrent, rfl⟩ := current_of_find? targetFound
  refine ⟨?_, ?_, ?_⟩
  · intro edge present
    rcases Graph.mem_edges_connect present with earlier | rfl
    · exact faithful.coherent edge earlier
    · exact ⟨origin, goal, originCurrent, rfl, rfl, goalCurrent⟩
  · intro first spelled second present
    rcases List.mem_append.mp present with earlier | last
    · exact faithful.resolved first spelled second earlier
    · obtain ⟨rfl, rfl, rfl⟩ :
          first = .text origin.name ∧ spelled = label ∧ second = .text goal.name := by simpa using last
      exact ⟨Option.isSome_of_eq_some originCurrent, Option.isSome_of_eq_some goalCurrent⟩
  · intro state (current : nfa.Current state) symbol name
    have serials : origin.serial = state.serial ↔ state.name = origin.name := by
      constructor
      · intro same
        rw [regular.single origin (List.mem_append_left _ originCurrent.declared) state
          (List.mem_append_left _ current.declared) same]
      · intro same
        rw [current.eq originCurrent same]
    rw [Graph.exists_target_connect, faithful.recorded state current, serials]
    simp only [List.mem_append, List.mem_singleton, Command.addTransition.injEq, Label.text.injEq]
    constructor
    · rintro (⟨spelled, equal, present⟩ | ⟨⟨sourceName, equal⟩, targetName⟩)
      · exact ⟨spelled, equal, .inl present⟩
      · exact ⟨label, equal, .inr ⟨sourceName, rfl, targetName.symm⟩⟩
    · rintro ⟨spelled, equal, present | ⟨sourceName, rfl, targetName⟩⟩
      · exact .inl ⟨spelled, equal, present⟩
      · exact .inr ⟨⟨sourceName, equal⟩, targetName.symm⟩

theorem Faithful.perform {command : Command} (faithful : nfa.Faithful done) (regular : nfa.Regular)
    (success : nfa.perform command = .ok changed)
    (keeps : Linked done → ∀ name state, nfa.find? name = some state → changed.find? name = some state) :
    changed.Faithful (done ++ [command]) := by
  cases effect_of_perform success with
  | setStart text filled =>
      refine faithful.keep regular rfl (fun state present => ?_) (by simp) keeps
      exact (mem_declared_setStart present).imp_right (congrArg State.serial)
  | addState text filled =>
      refine faithful.keep regular rfl (fun state present => ?_) (by simp) keeps
      exact (mem_declared_addState present).imp_right (congrArg State.serial)
  | addFinal text filled =>
      refine faithful.keep regular rfl (fun state present => ?_) (by simp) keeps
      exact (mem_declared_addFinal present).imp_right (congrArg State.serial)
  | addSymbol symbol real =>
      exact faithful.keep regular rfl (fun state present => .inl present) (by simp) keeps
  | addTransition source label target origin goal sourceFound targetFound =>
      exact faithful.connect regular sourceFound targetFound

theorem faithful_replay {epsilon : Label} {symbols : List Label}
    (created : create epsilon symbols .empty = .ok nfa) {commands : List Command}
    (stable : nfa.NameStable commands) :
    (nfa.replay commands).Faithful (nfa.performed commands) := by
  have initial : nfa.Faithful [] := by
    rw [eq_of_create created]
    refine ⟨?_, ?_, ?_⟩ <;> simp [Coherent, empty, Graph.empty, Graph.targets]
  refine replay_induction (P := Faithful) initial commands ?_
  intro before command after changed split earlier success
  refine earlier.perform ((regular_of_create created).replay before) success fun linked name state found => ?_
  have kept := stable before command after split linked name state found
  rwa [attempt, success] at kept

end NFA

end FiniteAutomata
