import FiniteAutomata.Proofs.NFA.Assembled
import FiniteAutomata.Proofs.NFA.Merging

set_option autoImplicit false

/-!
The subset construction comes to its end after any run of calls. It asks for a start and is refused nothing
else, and it finds no more sets than there are sets of names that were given to states.
-/

namespace FiniteAutomata

namespace NFA

/-- The name that a call gives to a state. -/
def Command.given? : Command → Option String
  | .setStart (.text name) | .addState (.text name) | .addFinal (.text name) => some name
  | _ => none

def namesGiven (done : List Command) : Finset String :=
  (done.filterMap Command.given?).toFinset

/-- The loops of the construction come to their ends by themselves: those that close sets, those that look for
edges astray, and the one that expands the sets found. -/
structure Terminates (nfa : NFA) (naming : Naming) : Prop where
  closing : ∀ states, nfa.closeSearch.Ends states
    (nfa.closeSearch.run (states.length + nfa.graph.edges.length) states)
  straying : ∀ members, nfa.straySearch.Ends members
    (nfa.straySearch.run (members.length + nfa.graph.edges.length) members)
  expanding : ∀ start, nfa.initial = some start →
    (nfa.compositeSearch naming).Ends [.ofStates naming (nfa.close [start])]
      (nfa.composites naming (nfa.close [start]))

variable {nfa changed : NFA} {naming : Naming}

theorem bounded_stray (nfa : NFA) (members : List Member) :
    nfa.straySearch.Bounded members (members.length + nfa.graph.edges.length) := by
  refine Search.bounded_of_mem (members ++ nfa.graph.edges.filterMap Edge.target) ?_ ?_
  · intro member reached
    cases reached with
    | seed given => exact List.mem_append_left _ given
    | @step element _ _ follows =>
        cases state : element.state? with
        | none => simp [straySearch, state] at follows
        | some source =>
            simp only [straySearch, state, Option.elim_some, Graph.recorded] at follows
            obtain ⟨edge, leads, target⟩ :=
              List.mem_filterMap.mp ((Member.inPlace_perm _).mem_iff.mp follows)
            exact List.mem_append_right _ (List.mem_filterMap.mpr ⟨edge, (List.mem_filter.mp leads).1, target⟩)
  · rw [List.length_append]
    exact Nat.add_le_add_left (List.length_filterMap_le ..) _

theorem terminates (sound : nfa.graph.Sound) (naming : Naming) : nfa.Terminates naming where
  closing states := Search.ends_run (nfa.bounded_close states)
  straying members := Search.ends_run (nfa.bounded_stray members)
  expanding _ _ := Search.ends_run (bounded_composites sound naming (by simp))

theorem mem_heap_of_perform {command : Command} (success : nfa.perform command = .ok changed) {state : State}
    (present : state ∈ changed.heap) : state ∈ nfa.heap ∨ command.given? = some state.name := by
  have grown (text : String) (filled : text ≠ "") (edges : changed.graph.edges = nfa.graph.edges)
      (known : ∀ other ∈ changed.declared, other ∈ nfa.declared ∨ other = nfa.graph.born text filled) :
      state ∈ nfa.heap ∨ some text = some state.name :=
    (mem_heap_of_declared edges known present).imp_right fun born => by rw [born]; rfl
  cases effect_of_perform success with
  | setStart text filled => exact grown text filled rfl fun _ => mem_declared_setStart
  | addState text filled => exact grown text filled rfl fun _ => mem_declared_addState
  | addFinal text filled => exact grown text filled rfl fun _ => mem_declared_addFinal
  | addSymbol => exact .inl present
  | addTransition source label target origin goal sourceFound targetFound =>
      exact .inl (mem_heap_connect (mem_declared_of_find? targetFound).1 present)

theorem mem_namesGiven {done : List Command} {name : String} :
    name ∈ namesGiven done ↔ ∃ command ∈ done, command.given? = some name := by
  simp [namesGiven]

section Replay

variable {epsilon : Label} {symbols : List Label} {fresh : NFA}
  (created : create epsilon symbols .empty = .ok fresh) (commands : List Command)
include created

theorem name_mem_namesGiven : ∀ state ∈ (fresh.replay commands).heap,
    state.name ∈ namesGiven (fresh.performed commands) := by
  have initial : ∀ state ∈ fresh.heap, state.name ∈ namesGiven [] := by
    rw [eq_of_create created]
    simp [heap, declared, empty, Graph.empty]
  refine replay_induction (P := fun reached done => ∀ state ∈ reached.heap, state.name ∈ namesGiven done)
    initial commands ?_
  intro before command after changed split earlier success state present
  rw [mem_namesGiven]
  rcases mem_heap_of_perform success present with old | given
  · obtain ⟨other, here, given⟩ := mem_namesGiven.mp (earlier state old)
    exact ⟨other, List.mem_append_left _ here, given⟩
  · exact ⟨command, by simp, given⟩

theorem isSome_initial_replay : (fresh.replay commands).initial.isSome = true ↔
    ∃ name, .setStart name ∈ fresh.performed commands := by
  have none : fresh.initial = none := by rw [eq_of_create created]; rfl
  refine @replay_induction fresh (fun reached done =>
    reached.initial.isSome = true ↔ ∃ name, .setStart name ∈ done) (by simp [none]) commands ?_
  intro before command after changed split earlier success
  cases effect_of_perform success with
  | setStart text filled => simp
  | addState | addFinal | addSymbol | addTransition => simpa using earlier

end Replay

theorem mem_heap_of_follow {start : State} (started : nfa.initial = some start) (word : List Label) :
    ∀ state ∈ nfa.follow (nfa.close [start]) word, state ∈ nfa.heap := by
  have linked (source : State) (label : Label) (target : State) (leads : nfa.Leads source label target)
      (_ : source ∈ nfa.heap) : target ∈ nfa.heap := by
    obtain ⟨edge, recorded, -, here⟩ := (Graph.mem_targets ..).mp leads
    exact List.mem_append_right _ (List.mem_filterMap.mpr ⟨edge, recorded, here⟩)
  have rooted : ∀ state ∈ [start], state ∈ nfa.heap := by
    simp [heap, declared, started]
  exact forall_mem_follow linked (forall_mem_close linked rooted) word

theorem length_found_le (sound : nfa.graph.Sound) {start : State} (started : nfa.initial = some start)
    (naming : Naming) {names : Finset String} (given : ∀ state ∈ nfa.heap, state.name ∈ names) :
    (nfa.foundFrom naming start).length ≤ 2 ^ names.card - 1 := by
  have explored := explored_composites sound naming (by simp : nfa.close [start] ≠ [])
  have formed : ∀ item ∈ (nfa.composites naming (nfa.close [start])).met, item.Formed naming := by
    intro item present
    exact (exists_word_of_reaches sound naming (by simp) (explored.reached item present)).1
  have within : ∀ item ∈ (nfa.composites naming (nfa.close [start])).met,
      item.members.toFinset ∈ names.powerset.erase ∅ := by
    -- a set that was found has members, and each bears a name that was given
    intro item present
    obtain ⟨-, word, -, leads⟩ := exists_word_of_reaches sound naming (by simp) (explored.reached item present)
    refine Finset.mem_erase.mpr ⟨?_, Finset.mem_powerset.mpr fun name here => ?_⟩
    · simpa using (formed item present).members_ne_nil
    · obtain ⟨state, among, rfl⟩ := ((formed item present).mem_members name).mp (List.mem_toFinset.mp here)
      exact given state (mem_heap_of_follow started word state (leads ▸ among))
  calc (nfa.foundFrom naming start).length
      = (nfa.composites naming (nfa.close [start])).met.length := List.length_reverse
    _ ≤ (names.powerset.erase ∅).card := Composite.length_le_card formed explored.distinct _ within
    _ = 2 ^ names.card - 1 := by
        rw [Finset.card_erase_of_mem (Finset.empty_mem_powerset _), Finset.card_powerset]

theorem toDfa_total {epsilon : Label} {symbols : List Label} {fresh : NFA}
    (created : create epsilon symbols .empty = .ok fresh) (commands : List Command) (namer : Namer) :
    (fresh.replay commands).Terminates namer.name ∧
      ((fresh.replay commands).toDfa namer.name = .error .noStart ↔
        ∀ name, .setStart name ∉ fresh.performed commands) ∧
      ((∃ name, .setStart name ∈ fresh.performed commands) →
        ∃ dfa, (fresh.replay commands).toDfa namer.name = .ok dfa ∧
          (DFA.empty dfa.initial dfa.epsilon).performAll dfa.calls = .ok dfa ∧
          1 ≤ dfa.size ∧ dfa.size ≤ 2 ^ (namesGiven (fresh.performed commands)).card - 1) := by
  have regular := (regular_of_create created).replay commands
  have alphabet := apart_alphabet_replay created commands
  have given := name_mem_namesGiven created commands
  have startSet := isSome_initial_replay created commands
  generalize fresh.replay commands = nfa at regular alphabet given startSet ⊢
  refine ⟨terminates regular.sound namer.name, ?_⟩
  cases started : nfa.initial with
  | none =>
      have unset : ∀ name, .setStart name ∉ fresh.performed commands := fun name asked => by
        simpa [started] using startSet.mpr ⟨name, asked⟩
      exact ⟨⟨fun _ => unset, fun _ => toDfa_of_unstarted started namer.name⟩,
        fun ⟨name, asked⟩ => absurd asked (unset name)⟩
  | some start =>
      obtain ⟨built, covers⟩ := toDfa_namer regular.sound started namer
      have asked : ∃ name, .setStart name ∈ fresh.performed commands := startSet.mp (by simp [started])
      have names := nodup_names_found regular.sound namer.name (by simp : nfa.close [start] ≠ [])
      have size : (nfa.assemble namer.name (nfa.close [start]) (nfa.foundFrom namer.name start)).size =
          (nfa.foundFrom namer.name start).length := by simp [DFA.size, Table.size, assemble]
      refine ⟨⟨fun stopped => ?_, fun unset => ?_⟩, fun _ => ⟨_, built, ?_, ?_, ?_⟩⟩
      · rw [built] at stopped
        simp at stopped
      · obtain ⟨name, here⟩ := asked
        exact absurd here (unset name)
      · exact performAll_calls_assemble regular alphabet covers names
      · rw [size]
        exact List.length_pos_of_mem covers.seeded
      · rw [size]
        exact length_found_le regular.sound started namer.name given

theorem toDfa_total_reusedStart :
    create standardEpsilon [] .empty = .ok (empty standardEpsilon .empty) ∧
      (∃ name, .setStart name ∈ (empty standardEpsilon .empty).performed reusedStart) ∧
      ∃ dfa, ((empty standardEpsilon .empty).replay reusedStart).toDfa Namer.standard.name = .ok dfa ∧
        1 ≤ dfa.size ∧ dfa.size ≤ 7 := by
  -- two states bear the same name here, which counts once
  have created : create standardEpsilon [] .empty = .ok (empty standardEpsilon .empty) := rfl
  have asked : ∃ name, .setStart name ∈ (empty standardEpsilon .empty).performed reusedStart :=
    (isSome_initial_replay created reusedStart).mp (by rw [initial_reusedStart, Option.isSome_some])
  have names : (namesGiven ((empty standardEpsilon .empty).performed reusedStart)).card = 3 := by rfl
  obtain ⟨dfa, built, -, least, most⟩ := (toDfa_total created reusedStart Namer.standard).2.2 asked
  rw [names] at most
  exact ⟨created, asked, dfa, built, least, most⟩

end NFA

end FiniteAutomata
