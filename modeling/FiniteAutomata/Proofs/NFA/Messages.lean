import FiniteAutomata.Proofs.NFA.Construction
import FiniteAutomata.Proofs.NFA.Language

set_option autoImplicit false

/-!
What the subset construction tells while it goes on: each state of the automaton that it makes is announced once, the
initial one first, and at last it says how many there are.
-/

namespace FiniteAutomata

namespace NFA

def addedText (name : String) : String := "Added DFA state " ++ name

def startedText (name : String) : String := "Subset construction starts from " ++ name

/-- The three numbers count states of the automaton that was made, those of them that are final, and states of the
one that it was made from. -/
def builtText (states finals origins : Nat) (elapsed : String) : String :=
  "Built DFA with " ++ toString states ++ " states (" ++ toString finals ++ " final) from " ++ toString origins ++
    " NFA states in " ++ elapsed ++ "s"

/-- The messages tell of the states under the names `first` and `others`, which are all that there are. -/
structure Tells (nfa : NFA) (dfa : DFA) (elapsed : String) (messages : List Event) (first : String)
    (others : List String) : Prop where
  initial : dfa.initial = .text first
  once : (first :: others).Nodup
  every : ∀ state, dfa.hasState state = true ↔ ∃ name ∈ first :: others, state = .text name
  size : dfa.size = (first :: others).length
  finals : dfa.finals.length = (first :: others).countP fun name => dfa.isFinal (.text name)
  traced : Event.atLeast .trace messages =
    ⟨.trace, addedText first⟩ :: ⟨.debug, startedText first⟩ ::
      others.map (fun name => ⟨.trace, addedText name⟩) ++
        [⟨.debug, builtText dfa.size dfa.finals.length nfa.allStates.length elapsed⟩]
  debugged : Event.atLeast .debug messages =
    [⟨.debug, startedText first⟩, ⟨.debug, builtText dfa.size dfa.finals.length nfa.allStates.length elapsed⟩]

theorem atLeast_debug_told (first : String) (others : List String) (summary : String) :
    Event.atLeast .debug ((⟨.trace, addedText first⟩ : Event) :: ⟨.debug, startedText first⟩ ::
      others.map (fun name => ⟨.trace, addedText name⟩) ++ [⟨.debug, summary⟩]) =
        [⟨.debug, startedText first⟩, ⟨.debug, summary⟩] := by
  simp [Event.atLeast, Level.rank]

variable {nfa : NFA} {naming : Naming} {start : State}

theorem names_found (sound : nfa.graph.Sound)
    (unrefused : (nfa.composites naming (nfa.close [start])).refused = none) :
    ∃ others, (nfa.foundFrom naming start).map Composite.name =
      (Composite.ofStates naming (nfa.close [start])).name :: others := by
  -- the set that the search starts from was met before all others
  have explored := explored_composites sound naming (by simp : nfa.close [start] ≠ [])
  have leads := explored.first unrefused
  rw [List.getLast?_eq_head?_reverse] at leads
  obtain ⟨later, found⟩ := List.head?_eq_some_iff.mp leads
  exact ⟨later.map Composite.name, congrArg (List.map Composite.name) found⟩

theorem narration_eq_of_names {met : List Composite} {states : List State} {others : List String}
    (named : met.reverse.map Composite.name = (Composite.ofStates naming states).name :: others) :
    narration naming states met = ⟨.trace, addedText (Composite.ofStates naming states).name⟩ ::
      ⟨.debug, startedText (Composite.ofStates naming states).name⟩ ::
        others.map fun name => ⟨.trace, addedText name⟩ := by
  have later : (met.reverse.drop 1).map Composite.name = others := by
    rw [List.map_drop, named]
    rfl
  rw [narration, ← later, List.map_map]
  rfl

theorem toDfaEvents_of_unrefused (sound : nfa.graph.Sound) (started : nfa.initial = some start)
    (unrefused : (nfa.composites naming (nfa.close [start])).refused = none) (elapsed : String) :
    nfa.toDfaEvents naming elapsed =
      narration naming (nfa.close [start]) (nfa.composites naming (nfa.close [start])).met ++
        [nfa.summaryEvent (nfa.assemble naming (nfa.close [start]) (nfa.foundFrom naming start)) elapsed] := by
  simp only [toDfaEvents, start_of_sound sound started, conclude, unrefused]
  rfl

theorem tells_toDfaEvents (sound : nfa.graph.Sound) (started : nfa.initial = some start)
    (unrefused : (nfa.composites naming (nfa.close [start])).refused = none) (elapsed : String) :
    ∃ first others, nfa.Tells (nfa.assemble naming (nfa.close [start]) (nfa.foundFrom naming start)) elapsed
      (nfa.toDfaEvents naming elapsed) first others := by
  obtain ⟨others, named⟩ := names_found sound unrefused
  obtain ⟨-, covers⟩ := toDfa_of_unrefused sound started unrefused
  have once : ((nfa.foundFrom naming start).map Composite.name).Nodup :=
    nodup_names_found sound naming (by simp : nfa.close [start] ≠ [])
  have keys := nfa.keys_assemble naming (nfa.close [start]) (nfa.foundFrom naming start)
  have finals := finals_assemble covers
  have size : (nfa.assemble naming (nfa.close [start]) (nfa.foundFrom naming start)).size =
      ((nfa.foundFrom naming start).map Composite.name).length := by
    simp [DFA.size, Table.size, assemble]
  have events := toDfaEvents_of_unrefused sound started unrefused elapsed
  rw [narration_eq_of_names named] at events
  rw [named] at once keys size
  refine ⟨_, others, rfl, once, fun state => ?_, size, ?_, ?_, ?_⟩
  · rw [DFA.hasState_iff, keys]
    simp only [List.mem_map, exists_exists_and_eq_and, Label.text_beq_iff]
  · rw [finals, keys, List.filter_map, List.length_map, List.countP_eq_length_filter]
    rfl
  · rw [Event.atLeast_trace, events]
    rfl
  · rw [events]
    exact atLeast_debug_told ..

/-- Each state is announced once, the initial one first, and the numbers that are told at the end are right. -/
theorem toDfa_tells {epsilon : Label} {symbols : List Label} {fresh : NFA}
    (created : create epsilon symbols .empty = .ok fresh) {commands : List Command} {start : State}
    (started : (fresh.replay commands).initial = some start) (namer : Namer) (elapsed : String) :
    ∃ dfa first others, (fresh.replay commands).toDfa namer.name = .ok dfa ∧
      (fresh.replay commands).constructed namer.name elapsed =
        (.ok dfa, (fresh.replay commands).toDfaEvents namer.name elapsed) ∧
      (fresh.replay commands).Tells dfa elapsed ((fresh.replay commands).toDfaEvents namer.name elapsed)
        first others := by
  have regular := (regular_of_create created).replay commands
  have alphabet := apart_alphabet_replay created commands
  have unrefused := unrefused_composites regular.sound namer (by simp : (fresh.replay commands).close [start] ≠ [])
  obtain ⟨built, -⟩ := toDfa_of_unrefused regular.sound started unrefused
  obtain ⟨first, others, tells⟩ := tells_toDfaEvents regular.sound started unrefused elapsed
  have carried := constructed_eq regular alphabet namer.name elapsed
  rw [built] at carried
  exact ⟨_, first, others, built, carried, tells⟩

theorem toDfa_tells_silentCycle :
    create standardEpsilon [] .empty = .ok (empty standardEpsilon .empty) ∧
      ((empty standardEpsilon .empty).replay silentCycle).initial.isSome = true ∧
      ((empty standardEpsilon .empty).replay silentCycle).toDfaEvents Namer.standard.name "0.0001" =
        [⟨.trace, "Added DFA state [q, s]"⟩, ⟨.debug, "Subset construction starts from [q, s]"⟩,
          ⟨.trace, "Added DFA state [f]"⟩,
          ⟨.debug, "Built DFA with 2 states (2 final) from 3 NFA states in 0.0001s"⟩] ∧
      ∃ dfa, ((empty standardEpsilon .empty).replay silentCycle).toDfa Namer.standard.name = .ok dfa ∧
        dfa.initial = .text "[q, s]" ∧ dfa.size = 2 := by
  have created : create standardEpsilon [] .empty = .ok (empty standardEpsilon .empty) := rfl
  have told : ((empty standardEpsilon .empty).replay silentCycle).toDfaEvents Namer.standard.name "0.0001" =
      [⟨.trace, "Added DFA state [q, s]"⟩, ⟨.debug, "Subset construction starts from [q, s]"⟩,
        ⟨.trace, "Added DFA state [f]"⟩,
        ⟨.debug, "Built DFA with 2 states (2 final) from 3 NFA states in 0.0001s"⟩] := by rfl
  obtain ⟨dfa, first, others, built, -, tells⟩ :=
    toDfa_tells created initial_silentCycle Namer.standard "0.0001"
  have traced := tells.traced
  rw [told, Event.atLeast_trace] at traced
  have single : others.length = 1 := by simpa using congrArg List.length traced
  have name : "[q, s]" = first :=
    (String.append_right_inj "Added DFA state ").mp (congrArg Event.text (List.cons.inj traced).1)
  refine ⟨created, by rw [initial_silentCycle, Option.isSome_some], told, dfa, built, ?_, ?_⟩
  · rw [tells.initial, ← name]
  · rw [tells.size, List.length_cons, single]

end NFA

end FiniteAutomata
