import FiniteAutomata.NFA.Reading
import FiniteAutomata.Proofs.Exploration
import FiniteAutomata.Proofs.NFA.Stability
import FiniteAutomata.Proofs.Path

set_option autoImplicit false

/-!
The states that a nondeterministic automaton can be in after a word. Closing finds, up to their names, all
states that silent steps lead to; in a coherent automaton these are the ends of the paths that read the word.
-/

namespace FiniteAutomata

namespace NFA

variable (nfa : NFA)

def Leads (source : State) (label : Label) (target : State) : Prop :=
  -- the edges as links between states
  target ∈ nfa.graph.targets source label

/-- The states after a word that is read from `states`. -/
def follow (states : List State) (word : List Label) : List State :=
  word.foldl (fun reached symbol => nfa.close (nfa.move reached symbol)) states

/-- The states after a word that is read from the start, symbol by symbol. -/
def simulate (word : List Label) : Except Error (List State) := do
  word.foldlM nfa.next (← nfa.start)

@[simp] theorem follow_nil (states : List State) : nfa.follow states [] = states := rfl

@[simp] theorem follow_cons (states : List State) (symbol : Label) (word : List Label) :
    nfa.follow states (symbol :: word) = nfa.follow (nfa.close (nfa.move states symbol)) word := rfl

theorem follow_append (states : List State) (first second : List Label) :
    nfa.follow states (first ++ second) = nfa.follow (nfa.follow states first) second := by
  simp [follow]

theorem bounded_close (states : List State) :
    nfa.closeSearch.Bounded states (states.length + nfa.graph.edges.length) := by
  -- what is met was given or is the target of an edge
  refine Search.bounded_of_mem (states ++ nfa.graph.edges.filterMap Edge.state?) ?_ ?_
  · intro state reached
    cases reached with
    | seed given => exact List.mem_append_left _ given
    | step _ follows =>
        obtain ⟨edge, recorded, -, target⟩ := (Graph.mem_targets ..).mp follows
        exact List.mem_append_right _ (List.mem_filterMap.mpr ⟨edge, recorded, target⟩)
  · rw [List.length_append]
    exact Nat.add_le_add_left (List.length_filterMap_le ..) _

theorem explored_close (states : List State) : nfa.closeSearch.Explored states
    (nfa.closeSearch.run (states.length + nfa.graph.edges.length) states) :=
  Search.explored_run (nfa.bounded_close states)

theorem unrefused_close (states : List State) :
    (nfa.closeSearch.run (states.length + nfa.graph.edges.length) states).refused = none := by
  cases stop : (nfa.closeSearch.run (states.length + nfa.graph.edges.length) states).refused with
  | none => rfl
  | some candidate =>
      obtain ⟨-, halted | refusal⟩ := (nfa.explored_close states).stopped candidate stop
      · exact absurd halted (by simp [closeSearch])
      · exact absurd refusal (by simp [closeSearch])

theorem close_covers {states : List State} {state : State} (given : state ∈ states) :
    ∃ known ∈ nfa.close states, known.name = state.name := by
  obtain ⟨known, present, equal, -⟩ :=
    (nfa.explored_close states).seeded (nfa.unrefused_close states) state given
  exact ⟨known, List.mem_reverse.mpr present, by simpa using equal⟩

variable {nfa}

theorem path_of_mem_close {states : List State} {state : State} (present : state ∈ nfa.close states) :
    ∃ origin ∈ states, Path nfa.Leads nfa.epsilon origin [] state := by
  -- closing only finds what silent steps lead to
  have reached := (nfa.explored_close states).reached state (List.mem_reverse.mp present)
  induction reached with
  | @seed element given => exact ⟨element, given, .stay element⟩
  | @step element next _ follows here ih =>
      rename_i before
      obtain ⟨origin, given, path⟩ := ih (List.mem_reverse.mpr (by cases before <;> assumption))
      exact ⟨origin, given, path.append (.silent follows BEq.rfl (.stay next))⟩

theorem close_closed {states : List State} {state next : State} (present : state ∈ nfa.close states)
    (follows : next ∈ nfa.graph.targets state nfa.epsilon) :
    ∃ known ∈ nfa.close states, known.name = next.name := by
  obtain ⟨known, here, equal, -⟩ := (nfa.explored_close states).closed (nfa.unrefused_close states) state
    (List.mem_reverse.mp present) next follows
  exact ⟨known, List.mem_reverse.mpr here, by simpa using equal⟩

@[simp] theorem close_eq_nil_iff (states : List State) : nfa.close states = [] ↔ states = [] := by
  constructor
  · intro none
    refine List.eq_nil_iff_forall_not_mem.mpr fun state given => ?_
    obtain ⟨known, present, -⟩ := nfa.close_covers given
    simp [none] at present
  · rintro rfl
    refine List.eq_nil_iff_forall_not_mem.mpr fun state present => ?_
    obtain ⟨origin, given, -⟩ := path_of_mem_close present
    simp at given

theorem leads_of_mem_move {states : List State} {label : Label} {target : State}
    (present : target ∈ nfa.move states label) : ∃ source ∈ states, nfa.Leads source label target := by
  rcases mem_foldl_addNew present with none | found
  · simp at none
  · simpa [Leads] using found

theorem move_covers {states : List State} {label : Label} {source target : State} (given : source ∈ states)
    (leads : nfa.Leads source label target) : ∃ known ∈ nfa.move states label, known.name = target.name := by
  have among : target ∈ states.flatMap fun state => nfa.graph.targets state label :=
    List.mem_flatMap.mpr ⟨source, given, leads⟩
  have found : (nfa.move states label).contains target = true := by
    rw [move, contains_foldl_addNew, (State.contains_iff ..).mpr ⟨target, among, rfl⟩, Bool.or_true]
  exact (State.contains_iff ..).mp found

section Keeping

variable {P : State → Prop}
  (step : ∀ source label target, nfa.Leads source label target → P source → P target)
include step

theorem forall_mem_close {states : List State} (given : ∀ state ∈ states, P state) :
    ∀ state ∈ nfa.close states, P state := by
  intro state present
  obtain ⟨origin, here, path⟩ := path_of_mem_close present
  exact path.keeps step (given origin here)

theorem forall_mem_follow {states : List State} (given : ∀ state ∈ states, P state) (word : List Label) :
    ∀ state ∈ nfa.follow states word, P state := by
  -- what links hand on from state to state holds of all states after a word
  induction word generalizing states with
  | nil => exact given
  | cons symbol rest ih =>
      refine ih (forall_mem_close step fun target moved => ?_)
      obtain ⟨source, here, leads⟩ := leads_of_mem_move moved
      exact step source symbol target leads (given source here)

end Keeping

@[simp] theorem follow_empty (word : List Label) : nfa.follow [] word = [] := by
  induction word with
  | nil => rfl
  | cons symbol rest ih =>
      have unmoved : nfa.move [] symbol = [] := rfl
      rw [follow_cons, unmoved, (close_eq_nil_iff []).mpr rfl, ih]

theorem follow_ne_nil_iff (states : List State) (word : List Label) :
    nfa.follow states word ≠ [] ↔ ∀ before, before <+: word → nfa.follow states before ≠ [] := by
  constructor
  · intro leads before begins stuck
    obtain ⟨rest, rfl⟩ := begins
    rw [follow_append, stuck, follow_empty] at leads
    exact leads rfl
  · intro leads
    exact leads word (List.prefix_refl word)

section Reading

variable (sound : nfa.graph.Sound)
include sound

theorem next_eq (states : List State) {symbol : Label} (real : (symbol == nfa.epsilon) = false) :
    nfa.next states symbol = .ok (nfa.close (nfa.move states symbol)) := by
  rw [next_symbol nfa states real, step_of_sound sound]

theorem read_eq_follow (states : List State) {word : List Label} (unmarked : Unmarked nfa.epsilon word) :
    nfa.machine.read states word = .ok (nfa.follow states word) := by
  induction word generalizing states with
  | nil => rfl
  | cons symbol rest ih =>
      obtain ⟨real, later⟩ := unmarked_cons.mp unmarked
      rw [nfa.machine.read_cons_ok (next_eq sound states real)]
      exact ih _ later

theorem foldlM_next (states : List State) {word : List Label} (unmarked : Unmarked nfa.epsilon word) :
    word.foldlM nfa.next states = .ok (nfa.follow states word) := by
  induction word generalizing states with
  | nil => rfl
  | cons symbol rest ih =>
      obtain ⟨real, later⟩ := unmarked_cons.mp unmarked
      rw [List.foldlM_cons, next_eq sound states real]
      exact ih _ later

theorem simulate_eq_follow {start : State} (started : nfa.initial = some start) {word : List Label}
    (unmarked : Unmarked nfa.epsilon word) :
    nfa.simulate word = .ok (nfa.follow (nfa.close [start]) word) := by
  simp [simulate, start_of_sound sound started, bind, Except.bind, foldlM_next sound _ unmarked]

theorem accept_eq {start : State} (started : nfa.initial = some start) {word : List Label}
    (unmarked : Unmarked nfa.epsilon word) :
    nfa.accept word = .ok (nfa.isFinal (nfa.follow (nfa.close [start]) word)) := by
  have begun : nfa.machine.start = .ok (nfa.close [start]) := start_of_sound sound started
  simp only [accept, Machine.accept, begun, bind, Except.bind, read_eq_follow sound _ unmarked]
  rfl

end Reading

section Coherence

variable (coherent : nfa.Coherent)
include coherent

theorem current_close {states : List State} (current : ∀ state ∈ states, nfa.Current state) :
    ∀ state ∈ nfa.close states, nfa.Current state :=
  forall_mem_close (fun _ _ _ leads _ => coherent.current_target leads) current

theorem mem_close_iff {states : List State} (current : ∀ state ∈ states, nfa.Current state) (state : State) :
    state ∈ nfa.close states ↔ ∃ origin ∈ states, Path nfa.Leads nfa.epsilon origin [] state := by
  refine ⟨path_of_mem_close, ?_⟩
  rintro ⟨origin, given, path⟩
  have closedCurrent := current_close coherent current
  -- a state in the closure that bears the same name is the same state
  have exact {known wanted : State} (present : known ∈ nfa.close states) (wantedCurrent : nfa.Current wanted)
      (same : known.name = wanted.name) : wanted ∈ nfa.close states :=
    (closedCurrent known present).eq wantedCurrent same ▸ present
  obtain ⟨known, present, same⟩ := nfa.close_covers given
  have began := exact present (current origin given) same
  clear given present same
  generalize nothing : ([] : List Label) = word at path
  induction path with
  | stay => exact began
  | @silent point middle last label word leads marked _ ih =>
      have follows : middle ∈ nfa.graph.targets point nfa.epsilon :=
        nfa.graph.targets_congr rfl marked ▸ leads
      obtain ⟨other, here, equal⟩ := close_closed began follows
      exact ih (exact here (coherent.current_target follows) equal) nothing
  | symbol => simp at nothing

theorem current_start {start : State} (started : nfa.initial = some start) :
    ∀ state ∈ nfa.close [start], nfa.Current state :=
  current_close coherent (by simpa using current_initial started)

theorem current_move {states : List State} {label : Label} :
    ∀ state ∈ nfa.move states label, nfa.Current state := by
  intro state present
  obtain ⟨source, -, leads⟩ := leads_of_mem_move present
  exact coherent.current_target leads

theorem mem_move_iff (states : List State) (label : Label) (target : State) :
    target ∈ nfa.move states label ↔ ∃ source ∈ states, nfa.Leads source label target := by
  refine ⟨leads_of_mem_move, ?_⟩
  rintro ⟨source, given, leads⟩
  obtain ⟨known, present, same⟩ := move_covers given leads
  have equal := (current_move coherent known present).eq (coherent.current_target leads) same
  exact equal ▸ present

theorem mem_follow_iff {states : List State} (current : ∀ state ∈ states, nfa.Current state)
    {word : List Label} (unmarked : Unmarked nfa.epsilon word) (state : State) :
    state ∈ nfa.follow (nfa.close states) word ↔
      ∃ origin ∈ states, Path nfa.Leads nfa.epsilon origin word state := by
  induction word generalizing states with
  | nil => exact mem_close_iff coherent current state
  | cons symbol rest ih =>
      obtain ⟨real, later⟩ := unmarked_cons.mp unmarked
      rw [follow_cons, ih (current_move coherent) later]
      constructor
      · rintro ⟨goal, moved, after⟩
        obtain ⟨origin, closed, leads⟩ := (mem_move_iff coherent ..).mp moved
        obtain ⟨first, given, before⟩ := (mem_close_iff coherent current origin).mp closed
        exact ⟨first, given, Path.cons_iff.mpr ⟨origin, goal, symbol, before, leads, real, BEq.rfl, after⟩⟩
      · rintro ⟨first, given, path⟩
        obtain ⟨origin, goal, label, before, leads, -, reads, after⟩ := Path.cons_iff.mp path
        have closed := (mem_close_iff coherent current origin).mpr ⟨first, given, before⟩
        have step : nfa.Leads origin symbol goal := by rwa [Leads, ← nfa.graph.targets_congr rfl reads]
        exact ⟨goal, (mem_move_iff coherent ..).mpr ⟨origin, closed, step⟩, after⟩

theorem current_follow {states : List State} (current : ∀ state ∈ states, nfa.Current state)
    (word : List Label) : ∀ state ∈ nfa.follow states word, nfa.Current state :=
  forall_mem_follow (fun _ _ _ leads _ => coherent.current_target leads) current word

theorem mem_follow_congr {left right : List State} (same : ∀ state, state ∈ left ↔ state ∈ right)
    (word : List Label) (state : State) : state ∈ nfa.follow left word ↔ state ∈ nfa.follow right word := by
  induction word generalizing left right with
  | nil => exact same state
  | cons symbol rest ih =>
      refine ih fun other => ?_
      rw [mem_close_iff coherent (current_move coherent), mem_close_iff coherent (current_move coherent)]
      simp only [mem_move_iff coherent, same]

end Coherence

end NFA

end FiniteAutomata
