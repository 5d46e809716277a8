import FiniteAutomata.Proofs.NFA.Following
import FiniteAutomata.Proofs.NFA.Language
import FiniteAutomata.Proofs.NFA.Triples
import Mathlib.Data.Set.Insert
import Mathlib.Logic.Relation

set_option autoImplicit false

/-!
Closing after a stable run, in terms of names: the silent edges that are shown lead from the names of what is closed
to all names in the closure, whatever states stand for them, in which order and how often.
-/

namespace FiniteAutomata

def nameSet (states : List State) : Set String :=
  {name | ∃ state ∈ states, state.name = name}

@[simp] theorem mem_nameSet (states : List State) (name : String) :
    name ∈ nameSet states ↔ ∃ state ∈ states, state.name = name := Iff.rfl

/-- The names by which the operands are looked up. -/
def Operand.names (operands : List Operand) : Set String :=
  {name | ∃ operand ∈ operands, operand.name? = some (.text name)}

@[simp] theorem Operand.mem_names (operands : List Operand) (name : String) :
    name ∈ names operands ↔ ∃ operand ∈ operands, operand.name? = some (.text name) := Iff.rfl

theorem Operand.names_append (operands others : List Operand) :
    names (operands ++ others) = names operands ∪ names others := by
  ext name
  simp [or_and_right, exists_or]

def Operand.ofStates (states : List State) : List Operand :=
  states.map fun state => .member (.state state)

theorem Operand.names_ofStates (states : List State) : names (ofStates states) = nameSet states := by
  ext name
  simp [ofStates, name?]

namespace NFA

variable {nfa : NFA} {operands others : List Operand}

/-- An edge that is shown leads silently from one name to the other. -/
def Silently (nfa : NFA) (source target : String) : Prop :=
  ∃ label, (label == nfa.epsilon) = true ∧ nfa.Shows (source, label, target)

/-- All names that silent edges lead to, one after the other. -/
def silentReach (nfa : NFA) (names : Set String) : Set String :=
  {name | ∃ origin ∈ names, Relation.ReflTransGen nfa.Silently origin name}

def Resolves (nfa : NFA) (operands : List Operand) : Prop :=
  ∀ operand ∈ operands, ∃ state, nfa.resolve operand = .ok state

def closedNames (nfa : NFA) (operands : List Operand) : Except Error (Set String) := do
  pure (nameSet (← nfa.closure operands))

section Reach

variable {names more : Set String}

theorem subset_silentReach (nfa : NFA) (names : Set String) : names ⊆ nfa.silentReach names :=
  fun name given => ⟨name, given, .refl⟩

theorem silentReach_mono (within : names ⊆ more) : nfa.silentReach names ⊆ nfa.silentReach more := by
  rintro name ⟨origin, given, leads⟩
  exact ⟨origin, within given, leads⟩

@[simp] theorem silentReach_silentReach : nfa.silentReach (nfa.silentReach names) = nfa.silentReach names := by
  apply Set.Subset.antisymm
  · rintro name ⟨middle, ⟨origin, given, before⟩, after⟩
    exact ⟨origin, given, before.trans after⟩
  · exact nfa.subset_silentReach _

theorem silentReach_union : nfa.silentReach (names ∪ more) = nfa.silentReach names ∪ nfa.silentReach more := by
  ext name
  simp [silentReach, or_and_right, exists_or]

end Reach

theorem Resolves.append (resolved : nfa.Resolves operands) (alsoResolved : nfa.Resolves others) :
    nfa.Resolves (operands ++ others) :=
  List.forall_mem_append.mpr ⟨resolved, alsoResolved⟩

theorem resolves_ofStates {states : List State}
    (borne : ∀ name ∈ nameSet states, ∃ state, nfa.Current state ∧ state.name = name) :
    nfa.Resolves (Operand.ofStates states) := by
  refine List.forall_mem_map.mpr fun state present => ?_
  obtain ⟨known, current, same⟩ := borne state.name ⟨state, present, rfl⟩
  exact ⟨known, (nfa.resolve_eq_ok_iff _ known).mpr ⟨by rw [same]; rfl, current⟩⟩

theorem exists_mapM_resolve (resolved : nfa.Resolves operands) : ∃ states, operands.mapM nfa.resolve = .ok states ∧
    (∀ state ∈ states, nfa.Current state) ∧ nameSet states = Operand.names operands := by
  induction operands with
  | nil => exact ⟨[], rfl, by simp, by ext; simp⟩
  | cons operand rest ih =>
      obtain ⟨⟨state, here⟩, later⟩ := List.forall_mem_cons.mp resolved
      obtain ⟨states, found, current, names⟩ := ih later
      obtain ⟨named, known⟩ := (nfa.resolve_eq_ok_iff operand state).mp here
      refine ⟨state :: states, ?_, List.forall_mem_cons.mpr ⟨known, current⟩, ?_⟩
      · simp [List.mapM_cons, here, found, bind, Except.bind, pure, Except.pure]
      · ext name
        have told := Set.ext_iff.mp names name
        simp only [mem_nameSet, Operand.mem_names] at told
        simp [told, named]

section Coherence

variable (sound : nfa.graph.Sound) (coherent : nfa.Coherent)
include sound coherent

theorem reach_of_path {origin state : State} (current : nfa.Current origin) {word : List Label}
    (path : Path nfa.Leads nfa.epsilon origin word state) (silent : word = []) :
    Relation.ReflTransGen nfa.Silently origin.name state.name := by
  -- each state on the path is the one that its name stands for, so that its edges are shown
  induction path with
  | stay => exact .refl
  | @silent point middle _ label _ leads marked _ ih =>
      have step : middle ∈ nfa.graph.targets point nfa.epsilon := nfa.graph.targets_congr rfl marked ▸ leads
      have shown : nfa.Silently point.name middle.name :=
        (exists_target_iff_shows sound current _ _).mp ⟨middle, step, rfl⟩
      exact .head shown (ih (coherent.current_target leads) silent)
  | symbol => simp at silent

theorem path_of_reach {origin : State} (current : nfa.Current origin) {name : String}
    (reached : Relation.ReflTransGen nfa.Silently origin.name name) :
    ∃ state, state.name = name ∧ nfa.Current state ∧ Path nfa.Leads nfa.epsilon origin [] state := by
  induction reached with
  | refl => exact ⟨origin, rfl, current, .stay origin⟩
  | tail _ shown ih =>
      obtain ⟨middle, rfl, here, path⟩ := ih
      obtain ⟨goal, leads, named⟩ := (exists_target_iff_shows sound here _ _).mpr shown
      exact ⟨goal, named, coherent.current_target leads, path.append (.silent leads BEq.rfl (.stay goal))⟩

theorem nameSet_close {states : List State} (current : ∀ state ∈ states, nfa.Current state) :
    nameSet (nfa.close states) = nfa.silentReach (nameSet states) := by
  ext name
  constructor
  · rintro ⟨state, present, rfl⟩
    obtain ⟨origin, given, path⟩ := (mem_close_iff coherent current state).mp present
    exact ⟨origin.name, ⟨origin, given, rfl⟩, reach_of_path sound coherent (current origin given) path rfl⟩
  · rintro ⟨_, ⟨origin, given, rfl⟩, reached⟩
    obtain ⟨state, named, -, path⟩ := path_of_reach sound coherent (current origin given) reached
    exact ⟨state, (mem_close_iff coherent current state).mpr ⟨origin, given, path⟩, named⟩

theorem exists_closure (resolved : nfa.Resolves operands) : ∃ closed, nfa.closure operands = .ok closed ∧
    (∀ state ∈ closed, nfa.Current state) ∧ nameSet closed = nfa.silentReach (Operand.names operands) := by
  obtain ⟨states, found, current, names⟩ := exists_mapM_resolve resolved
  refine ⟨nfa.close states, ?_, current_close coherent current, ?_⟩
  · simp only [closure, found, bind, Except.bind, closed_of_sound sound]
  · rw [nameSet_close sound coherent current, names]

theorem closedNames_eq (resolved : nfa.Resolves operands) :
    nfa.closedNames operands = .ok (nfa.silentReach (Operand.names operands)) := by
  obtain ⟨closed, made, -, names⟩ := exists_closure sound coherent resolved
  simp only [closedNames, made, bind, Except.bind, pure, Except.pure, names]

end Coherence

/-- What closing gives for operands that stand for states, by the names of the states. -/
structure ClosesByName (nfa : NFA) : Prop where
  ends : ∀ states, nfa.closeSearch.Ends states
    (nfa.closeSearch.run (states.length + nfa.graph.edges.length) states)
  shown : ∃ triples, nfa.triples = .ok triples
  names : ∀ operands, nfa.Resolves operands →
    nfa.closedNames operands = .ok (nfa.silentReach (Operand.names operands))
  single : ∀ operand, nfa.epsilonClosure operand = nfa.closure [operand]
  contains : ∀ operands, nfa.Resolves operands →
    ∃ names, nfa.closedNames operands = .ok names ∧ Operand.names operands ⊆ names
  idempotent : ∀ operands closed, nfa.Resolves operands → nfa.closure operands = .ok closed →
    nfa.closedNames (Operand.ofStates closed) = .ok (nameSet closed)
  monotone : ∀ operands others, nfa.Resolves operands → nfa.Resolves others →
    Operand.names operands ⊆ Operand.names others →
    ∃ names more, nfa.closedNames operands = .ok names ∧ nfa.closedNames others = .ok more ∧ names ⊆ more
  union : ∀ operands others, nfa.Resolves operands → nfa.Resolves others →
    ∃ names more, nfa.closedNames operands = .ok names ∧ nfa.closedNames others = .ok more ∧
      nfa.closedNames (operands ++ others) = .ok (names ∪ more)

theorem closesByName_of_coherent (sound : nfa.graph.Sound) (coherent : nfa.Coherent) : nfa.ClosesByName where
  ends states := Search.ends_run (nfa.bounded_close states)
  shown := ⟨_, triples_of_sound sound⟩
  names _ := closedNames_eq sound coherent
  single _ := rfl
  contains _ resolved := ⟨_, closedNames_eq sound coherent resolved, nfa.subset_silentReach _⟩
  idempotent operands closed resolved made := by
    obtain ⟨states, found, current, names⟩ := exists_closure sound coherent resolved
    obtain rfl := Except.ok.inj (found.symm.trans made)
    have borne : ∀ name ∈ nameSet states, ∃ state, nfa.Current state ∧ state.name = name :=
      fun _ ⟨state, present, named⟩ => ⟨state, current state present, named⟩
    rw [closedNames_eq sound coherent (resolves_ofStates borne), Operand.names_ofStates, names,
      silentReach_silentReach]
  monotone _ _ resolved otherResolved within :=
    ⟨_, _, closedNames_eq sound coherent resolved, closedNames_eq sound coherent otherResolved,
      silentReach_mono within⟩
  union _ _ resolved otherResolved := by
    refine ⟨_, _, closedNames_eq sound coherent resolved, closedNames_eq sound coherent otherResolved, ?_⟩
    rw [closedNames_eq sound coherent (resolved.append otherResolved), Operand.names_append, silentReach_union]

/-- After a stable run closing comes to its end with the names that silent edges lead to. -/
theorem closesByName_replay {epsilon : Label} {symbols : List Label} {fresh : NFA}
    (created : create epsilon symbols .empty = .ok fresh) {commands : List Command}
    (stable : fresh.NameStable commands) : (fresh.replay commands).ClosesByName :=
  closesByName_of_coherent ((regular_of_create created).replay commands).sound
    (faithful_replay created stable).coherent

theorem closesByName_silentCycle :
    create standardEpsilon [] .empty = .ok (empty standardEpsilon .empty) ∧
      (empty standardEpsilon .empty).NameStable silentCycle ∧
      ((empty standardEpsilon .empty).replay silentCycle).Resolves
        [.member (.state ⟨9, "q", by decide⟩), .member (.label (.text "q"))] ∧
      ∃ closed, ((empty standardEpsilon .empty).replay silentCycle).closure
          [.member (.state ⟨9, "q", by decide⟩), .member (.label (.text "q"))] = .ok closed ∧
        closed.map State.name = ["q", "s"] ∧
        ((empty standardEpsilon .empty).replay silentCycle).silentReach {"q"} = {"q", "s"} := by
  have created : create standardEpsilon [] .empty = .ok (empty standardEpsilon .empty) := rfl
  have closes := closesByName_replay created nameStable_silentCycle
  have resolved : ((empty standardEpsilon .empty).replay silentCycle).Resolves
      [.member (.state ⟨9, "q", by decide⟩), .member (.label (.text "q"))] := by
    simp only [Resolves, List.forall_mem_cons, List.not_mem_nil]
    exact ⟨⟨_, rfl⟩, ⟨_, rfl⟩, by simp⟩
  refine ⟨created, nameStable_silentCycle, resolved, _, rfl, by rfl, ?_⟩
  have told : nameSet [⟨1, "q", by decide⟩, ⟨2, "s", by decide⟩] = _ :=
    Except.ok.inj (closes.names _ resolved)
  have given : Operand.names
      [.member (.state ⟨9, "q", by decide⟩), .member (.label (.text "q"))] = {"q"} := by
    ext
    simp [Operand.name?, eq_comm]
  rw [← given, ← told]
  ext
  simp [eq_comm]

end NFA

end FiniteAutomata
