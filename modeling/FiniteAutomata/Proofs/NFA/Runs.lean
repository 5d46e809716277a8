import FiniteAutomata.Proofs.NFA.Calls
import FiniteAutomata.Proofs.Path

set_option autoImplicit false

/-!
What any run of calls keeps: states have numbers of their own, edges lead to states, and the labels of edges
are in the alphabet.
-/

namespace FiniteAutomata

theorem exists_name_addNew (states : List State) (state : State) (name : String) :
    (∃ other ∈ addNew states state, other.name = name) ↔
      (∃ other ∈ states, other.name = name) ∨ state.name = name := by
  unfold addNew
  split
  · rename_i present
    obtain ⟨known, here, equal⟩ := (State.contains_iff ..).mp present
    refine ⟨.inl, ?_⟩
    rintro (old | wanted)
    · exact old
    · exact ⟨known, here, equal.trans wanted⟩
  · simp [or_and_right, exists_or]

namespace NFA

/-- The states that can be met: those that are declared, and those that edges lead to. -/
def heap (nfa : NFA) : List State :=
  nfa.declared ++ nfa.graph.edges.filterMap Edge.state?

structure Regular (nfa : NFA) : Prop where
  sound : nfa.graph.Sound
  rooted : ∀ edge ∈ nfa.graph.edges, edge.source < nfa.graph.next
  numbered : ∀ state ∈ nfa.heap, state.serial < nfa.graph.next
  single : ∀ left ∈ nfa.heap, ∀ right ∈ nfa.heap, left.serial = right.serial → left = right
  real : ∀ symbol ∈ nfa.alphabet, (symbol == nfa.epsilon) = false
  lettered : ∀ edge ∈ nfa.graph.edges,
    (edge.label == nfa.epsilon) = true ∨ nfa.alphabet.contains edge.label = true

variable {nfa changed : NFA}

theorem Regular.unmarked (regular : nfa.Regular) {word : List Label}
    (letters : ∀ symbol ∈ word, symbol ∈ nfa.alphabet) : Unmarked nfa.epsilon word :=
  fun symbol present => regular.real symbol (letters symbol present)

theorem regular_empty (epsilon : Label) : (empty epsilon .empty).Regular := by
  constructor <;> simp [empty, Graph.empty, Graph.Sound, heap, declared]

theorem mem_heap_of_declared {added state : State} (edges : changed.graph.edges = nfa.graph.edges)
    (known : ∀ state ∈ changed.declared, state ∈ nfa.declared ∨ state = added)
    (present : state ∈ changed.heap) : state ∈ nfa.heap ∨ state = added := by
  rcases List.mem_append.mp present with here | led
  · exact (known state here).imp_left (List.mem_append_left _)
  · exact .inl (List.mem_append_right _ (edges ▸ led))

theorem mem_heap_connect {alphabet : List Label} {label : Label} {origin goal state : State}
    (goalKnown : goal ∈ nfa.declared)
    (present : state ∈ heap { nfa with alphabet := alphabet, graph := nfa.graph.connect origin label goal }) :
    state ∈ nfa.heap := by
  rcases List.mem_append.mp present with here | led
  · exact List.mem_append_left _ here
  · obtain ⟨edge, recorded, leads⟩ := List.mem_filterMap.mp led
    rcases Graph.mem_edges_connect recorded with earlier | rfl
    · exact List.mem_append_right _ (List.mem_filterMap.mpr ⟨edge, earlier, leads⟩)
    · obtain rfl : goal = state := by simpa [Edge.state?, Member.state?] using leads
      exact List.mem_append_left _ goalKnown

theorem Regular.grow (regular : nfa.Regular) (text : String) (filled : text ≠ "")
    (epsilon : changed.epsilon = nfa.epsilon) (alphabet : changed.alphabet = nfa.alphabet)
    (graph : changed.graph = nfa.graph.grown)
    (known : ∀ state ∈ changed.declared, state ∈ nfa.declared ∨ state = nfa.graph.born text filled) :
    changed.Regular := by
  have edges : changed.graph.edges = nfa.graph.edges := by rw [graph]; rfl
  have next : changed.graph.next = nfa.graph.next + 1 := by rw [graph]; rfl
  have old : ∀ state ∈ changed.heap, state ∈ nfa.heap ∨ state = nfa.graph.born text filled :=
    fun state => mem_heap_of_declared edges known
  -- the new state takes the next number, which no state of the heap has yet
  have serial : (nfa.graph.born text filled).serial = nfa.graph.next := rfl
  constructor
  · exact fun edge present => regular.sound edge (edges ▸ present)
  · intro edge present
    have below := regular.rooted edge (edges ▸ present)
    omega
  · intro state present
    rcases old state present with present | rfl
    · have below := regular.numbered state present
      omega
    · omega
  · intro left leftPresent right rightPresent same
    rcases old left leftPresent with leftOld | rfl <;> rcases old right rightPresent with rightOld | rfl
    · exact regular.single left leftOld right rightOld same
    · have below := regular.numbered left leftOld
      omega
    · have below := regular.numbered right rightOld
      omega
    · rfl
  · rw [alphabet, epsilon]
    exact regular.real
  · rw [edges, alphabet, epsilon]
    exact regular.lettered

theorem mem_declared_of_find? {name : Label} {state : State} (found : nfa.find? name = some state) :
    state ∈ nfa.declared ∧ name = .text state.name :=
  ⟨List.mem_of_find?_eq_some found, (Label.text_beq_iff ..).mp (by simpa using List.find?_some found)⟩

theorem Regular.connect {label : Label} {origin goal : State} (regular : nfa.Regular)
    (originKnown : origin ∈ nfa.declared) (goalKnown : goal ∈ nfa.declared) :
    Regular { nfa with
      alphabet := if label == nfa.epsilon then nfa.alphabet else addNew nfa.alphabet label
      graph := nfa.graph.connect origin label goal } := by
  have next : (nfa.graph.connect origin label goal).next = nfa.graph.next := by
    unfold Graph.connect
    split <;> rfl
  have old : ∀ state ∈ heap { nfa with
      alphabet := if label == nfa.epsilon then nfa.alphabet else addNew nfa.alphabet label
      graph := nfa.graph.connect origin label goal }, state ∈ nfa.heap :=
    fun state => mem_heap_connect goalKnown
  constructor
  · exact regular.sound.connect origin label goal
  · intro edge present
    simp only [next]
    rcases Graph.mem_edges_connect present with earlier | rfl
    · exact regular.rooted edge earlier
    · exact regular.numbered origin (List.mem_append_left _ originKnown)
  · intro state present
    simp only [next]
    exact regular.numbered state (old state present)
  · exact fun left leftPresent right rightPresent =>
      regular.single left (old left leftPresent) right (old right rightPresent)
  · intro symbol present
    by_cases silent : (label == nfa.epsilon) = true
    · exact regular.real symbol (by simpa [silent] using present)
    · rw [if_neg silent] at present
      rcases mem_addNew present with earlier | rfl
      · exact regular.real symbol earlier
      · simpa using silent
  · intro edge present
    by_cases silent : (label == nfa.epsilon) = true
    · simp only [silent, if_true]
      rcases Graph.mem_edges_connect present with earlier | rfl
      · exact regular.lettered edge earlier
      · exact .inl silent
    · simp only [silent, if_false, Bool.false_eq_true, contains_addNew]
      rcases Graph.mem_edges_connect present with earlier | rfl
      · exact (regular.lettered edge earlier).imp_right fun known => by simp [known]
      · exact .inr (by simp)

theorem Regular.perform {command : Command} (regular : nfa.Regular)
    (success : nfa.perform command = .ok changed) : changed.Regular := by
  cases effect_of_perform success with
  | setStart text filled => exact regular.grow text filled rfl rfl rfl fun _ => mem_declared_setStart
  | addState text filled => exact regular.grow text filled rfl rfl rfl fun _ => mem_declared_addState
  | addFinal text filled => exact regular.grow text filled rfl rfl rfl fun _ => mem_declared_addFinal
  | addSymbol symbol real =>
      refine ⟨regular.sound, regular.rooted, regular.numbered, regular.single, ?_, ?_⟩
      · intro other present
        rcases mem_addNew present with earlier | rfl
        · exact regular.real other earlier
        · exact real
      · intro edge present
        rw [contains_addNew]
        exact (regular.lettered edge present).imp_right fun known => by simp [known]
  | addTransition source label target origin goal sourceFound targetFound =>
      exact regular.connect (mem_declared_of_find? sourceFound).1 (mem_declared_of_find? targetFound).1

theorem Regular.replay (regular : nfa.Regular) (commands : List Command) : (nfa.replay commands).Regular :=
  replay_induction (P := fun reached _ => reached.Regular) regular commands
    fun _ _ _ _ _ earlier success => earlier.perform success

theorem eq_of_create {epsilon : Label} {symbols : List Label} {graph : Graph}
    (created : create epsilon symbols graph = .ok nfa) :
    nfa = { empty epsilon graph with alphabet := nfa.alphabet } := by
  -- an automaton begins with the declared alphabet and nothing else
  have kept (symbols : List Label) (before : NFA) (result : symbols.foldlM addSymbol before = .ok nfa) :
      nfa = { before with alphabet := nfa.alphabet } := by
    induction symbols generalizing before with
    | nil => cases Except.ok.inj result; rfl
    | cons symbol rest ih =>
        cases step : before.addSymbol symbol with
        | error error => simp [step, bind, Except.bind] at result
        | ok next =>
            simp only [List.foldlM_cons, step, bind, Except.bind] at result
            have effect : before.Effect (.addSymbol symbol) next := effect_of_perform step
            cases effect
            have later := ih _ result
            exact later
  exact kept symbols _ created

theorem performAll_of_create {epsilon : Label} {symbols : List Label} {graph : Graph}
    (created : create epsilon symbols graph = .ok nfa) :
    (empty epsilon graph).performAll (symbols.map .addSymbol) = .ok nfa := by
  rw [performAll, List.foldlM_map]
  exact created

theorem regular_of_create {epsilon : Label} {symbols : List Label}
    (created : create epsilon symbols .empty = .ok nfa) : nfa.Regular := by
  rw [← replay_eq_of_performAll (performAll_of_create created)]
  exact (regular_empty epsilon).replay _

theorem epsilon_replay {epsilon : Label} {symbols : List Label}
    (created : create epsilon symbols .empty = .ok nfa) (commands : List Command) :
    (nfa.replay commands).epsilon = epsilon := by
  have marker : nfa.epsilon = epsilon := by
    rw [eq_of_create created]
    rfl
  refine replay_induction (P := fun reached _ => reached.epsilon = epsilon) marker commands ?_
  intro _ _ _ _ _ earlier success
  cases effect_of_perform success <;> exact earlier

theorem mem_finals_replay {epsilon : Label} {symbols : List Label}
    (created : create epsilon symbols .empty = .ok nfa) (commands : List Command) (name : String) :
    (∃ final ∈ (nfa.replay commands).finals, final.name = name) ↔
      .addFinal (.text name) ∈ nfa.performed commands := by
  have none : nfa.finals = [] := by rw [eq_of_create created]; rfl
  refine @replay_induction nfa (fun reached done =>
    (∃ final ∈ reached.finals, final.name = name) ↔ .addFinal (.text name) ∈ done) ?_ commands ?_
  · simp [none]
  intro _ _ _ _ _ earlier success
  cases effect_of_perform success with
  | addFinal text filled =>
      rw [exists_name_addNew, earlier, List.mem_append]
      simp [Graph.born, eq_comm]
  | setStart | addState | addSymbol | addTransition =>
      rw [List.mem_append, ← earlier]
      simp

end NFA

end FiniteAutomata
