import FiniteAutomata.Proofs.NFA.Assembled
import Mathlib.Logic.Function.Basic

set_option autoImplicit false

/-!
The subset construction as it is carried out: states are added, moves are made and messages are sent one by one while
sets are found. What a single step does to the automaton, to the messages and to what is still to be expanded.
-/

namespace FiniteAutomata

namespace NFA

/-- A construction under way. Of the sets that were found, and of those that are still to be expanded, the newest come
first. -/
structure Building where
  dfa : DFA
  found : List Composite
  pending : List Composite
  log : List Event

def announce (event : Event) : EStateM Error Building Unit :=
  modify fun building => { building with log := building.log ++ [event] }

def change (command : DFA.Command) : EStateM Error Building Unit := do
  let building ← get
  let dfa ← ofExcept (building.dfa.perform command)
  set { building with dfa }

def stateCall (nfa : NFA) (composite : Composite) : DFA.Command :=
  if nfa.isFinal composite.states then .addFinal (.text composite.name) (composite.members.map .text)
  else .addState (.text composite.name) (composite.members.map .text)

def takeUp (nfa : NFA) (composite : Composite) : EStateM Error Building Unit := do
  modify fun building => { building with found := composite :: building.found }
  change (nfa.stateCall composite)
  announce (addedEvent composite)
  modify fun building => { building with pending := composite :: building.pending }

def receive (nfa : NFA) (target : Composite) : EStateM Error Building Unit := do
  let building ← get
  match building.found.find? (· == target) with
  | none => nfa.takeUp target
  | some known => if known.members == target.members then pure () else throw (.sharedName target.name)

def lead (nfa : NFA) (naming : Naming) (current : Composite) (symbol : Label) : EStateM Error Building Unit :=
  match nfa.successor? naming current.states symbol with
  | none => pure ()
  | some target =>
      match target.fault with
      | some error => throw error
      | none => do
          nfa.receive target
          change (.addTransition (.text current.name) symbol (.text target.name))

def expandAll (nfa : NFA) (naming : Naming) : Nat → EStateM Error Building Unit
  | 0 => pure ()
  | fuel + 1 => do
      let building ← get
      match building.pending with
      | [] => pure ()
      | current :: rest => do
          set { building with pending := rest }
          nfa.alphabet.forM (nfa.lead naming current)
          nfa.expandAll naming fuel

def startedEvent (first : Composite) : Event :=
  ⟨.debug, "Subset construction starts from " ++ first.name⟩

def begin (nfa : NFA) (first : Composite) : EStateM Error Building Unit := do
  nfa.alphabet.forM fun symbol => change (.addSymbol symbol)
  nfa.takeUp first
  announce (startedEvent first)

def construct (nfa : NFA) (naming : Naming) (elapsed : String) (first : Composite) :
    EStateM Error Building Unit := do
  nfa.begin first
  nfa.expandAll naming (Nat.pow 2 (nfa.graph.edges.length + 1))
  let building ← get
  announce (nfa.summaryEvent building.dfa elapsed)

/-- What the construction comes to, and the messages that it has sent by then. -/
def constructed (nfa : NFA) (naming : Naming) (elapsed : String) : Except Error DFA × List Event :=
  match nfa.start with
  | .error error => (.error error, [])
  | .ok start =>
      let first := Composite.ofStates naming start
      match nfa.construct naming elapsed first ⟨.empty (.text first.name) nfa.epsilon, [], [], []⟩ with
      | .ok _ building => (.ok building.dfa, building.log)
      | .error error building => (.error error, building.log)

section Steps

variable {α β : Type} {action : EStateM Error Building α} {before after : Building}

theorem bind_of_ok {value : α} (next : α → EStateM Error Building β) (step : action before = .ok value after) :
    (action >>= next) before = next value after := by
  simp [bind, EStateM.bind, step]

theorem bind_of_error {error : Error} (next : α → EStateM Error Building β)
    (step : action before = .error error after) : (action >>= next) before = .error error after := by
  simp [bind, EStateM.bind, step]

theorem forM_of_ok {ι : Type} {item : ι} {rest : List ι} {each : ι → EStateM Error Building Unit}
    (step : each item before = .ok () after) : (item :: rest).forM each before = rest.forM each after :=
  bind_of_ok _ step

theorem forM_of_error {ι : Type} {item : ι} {rest : List ι} {each : ι → EStateM Error Building Unit}
    {error : Error} (step : each item before = .error error after) :
    (item :: rest).forM each before = .error error after :=
  bind_of_error _ step

theorem modify_bind (update : Building → Building) (next : Unit → EStateM Error Building β) :
    (modify update >>= next) before = next () (update before) := rfl

theorem get_bind (next : Building → EStateM Error Building β) : (get >>= next) before = next before before := rfl

theorem change_of_ok {command : DFA.Command} {dfa : DFA} (success : before.dfa.perform command = .ok dfa) :
    change command before = .ok () { before with dfa } := by
  have opened : change command before =
      ((ofExcept (before.dfa.perform command) >>= fun dfa => set { before with dfa }) :
        EStateM Error Building Unit) before := rfl
  rw [opened, success]
  rfl

theorem forM_change {ι : Type} {call : ι → DFA.Command} {items : List ι} {dfa : DFA}
    (success : before.dfa.performAll (items.map call) = .ok dfa) :
    (items.forM fun item => change (call item)) before = .ok () { before with dfa } := by
  induction items generalizing before with
  | nil =>
      obtain rfl := Except.ok.inj success
      rfl
  | cons item rest ih =>
      cases step : before.dfa.perform (call item) with
      | error error => simp [DFA.performAll, step, bind, Except.bind] at success
      | ok changed =>
          rw [List.map_cons, DFA.performAll_cons step] at success
          have first := @forM_of_ok _ _ _ _ rest (fun item => change (call item)) (change_of_ok step)
          exact first.trans (ih success)

end Steps

section Midway

variable (nfa : NFA) (naming : Naming) (start : List State)

/-- The automaton when the sets in `met` are in it, the newest first, with the moves that have been made so far. -/
def midway (met : List Composite) (moves : String → Table Label Label) : DFA :=
  { nfa.assemble naming start met.reverse with
    states := ⟨met.reverse.map fun composite =>
      (.text composite.name, ⟨composite.members.map .text, moves composite.name⟩)⟩ }

def narration (met : List Composite) : List Event :=
  let first := Composite.ofStates naming start
  addedEvent first :: startedEvent first :: (met.reverse.drop 1).map addedEvent

def underway (met pending : List Composite) (moves : String → Table Label Label) : Building :=
  ⟨nfa.midway naming start met moves, met, pending, narration naming start met⟩

end Midway

section Lead

variable {nfa : NFA} {naming : Naming} {start : List State} {met pending : List Composite}
  {moves : String → Table Label Label} {target : Composite}

theorem midway_of_complete (complete : ∀ composite ∈ met,
    moves composite.name = nfa.movesOn naming nfa.alphabet composite) :
    nfa.midway naming start met moves = nfa.assemble naming start met.reverse := by
  have nodes : met.reverse.map (fun composite => ((.text composite.name : Label),
      (⟨composite.members.map .text, moves composite.name⟩ : Node))) =
        met.reverse.map fun composite => (.text composite.name, nfa.nodeOf naming composite) :=
    List.map_congr_left fun composite here => by
      rw [complete composite (List.mem_reverse.mp here)]
      rfl
  simp only [midway, assemble, nodes]

theorem hasState_midway (name : String) : (nfa.midway naming start met moves).hasState (.text name) = true ↔
    ∃ known ∈ met, known.name = name := by
  rw [DFA.hasState, Table.contains_iff]
  simp [midway, Table.keys]

theorem nodup_members_of_successor {states : List State} {symbol : Label}
    (leads : nfa.successor? naming states symbol = some target) (sane : target.fault = none) :
    target.members.Nodup := by
  unfold successor? at leads
  split at leads
  · cases leads
  · obtain rfl := Option.some.inj leads
    exact nodup_canonical _
  · obtain rfl := Option.some.inj leads
    cases sane

theorem perform_stateCall (members : target.members.Nodup) (new : ∀ known ∈ met, known.name ≠ target.name)
    (unmoved : moves target.name = .empty) :
    (nfa.midway naming start met moves).perform (nfa.stateCall target) =
      .ok (nfa.midway naming start (target :: met) moves) := by
  have absent : (nfa.midway naming start met moves).states.contains (.text target.name) = false := by
    rw [← Bool.not_eq_true]
    intro present
    obtain ⟨known, here, same⟩ := (hasState_midway ..).mp present
    exact new known here same
  have unlisted : (nfa.midway naming start met moves).finals.contains (.text target.name) = false := by
    rw [← Bool.not_eq_true, List.contains_iff_exists_mem_beq]
    rintro ⟨_, listed, same⟩
    obtain ⟨known, here, rfl⟩ := List.mem_map.mp listed
    exact new known (List.mem_reverse.mp (List.mem_filter.mp here).1) (by simpa using BEq.symm same)
  have added : (nfa.midway naming start met moves).states.putNew (.text target.name)
      ⟨(target.members.map Label.text).foldl addNew [], .empty⟩ =
        (nfa.midway naming start (target :: met) moves).states := by
    rw [Table.putNew_of_absent absent, foldl_addNew_of_apart (apart_map_text members)]
    simp [midway, unmoved]
  cases final : nfa.isFinal target.states with
  | true =>
      simp only [stateCall, final, if_true, DFA.perform, DFA.addFinal, DFA.addState, added, addNew, unlisted]
      simp [midway, assemble, final]
  | false =>
      simp only [stateCall, final, Bool.false_eq_true, if_false, DFA.perform, DFA.addState, added]
      simp [midway, assemble, final]

theorem perform_addTransition {source goal : String} {symbol : Label} (real : (symbol == nfa.epsilon) = false)
    (lettered : nfa.alphabet.contains symbol = true) (here : ∃ known ∈ met, known.name = source)
    (there : ∃ known ∈ met, known.name = goal) :
    (nfa.midway naming start met moves).perform (.addTransition (.text source) symbol (.text goal)) =
      .ok (nfa.midway naming start met
        (Function.update moves source ((moves source).put symbol (.text goal)))) := by
  refine (DFA.addTransition_eq_ok_iff ..).mpr
    ⟨⟨real, (hasState_midway ..).mpr here, (hasState_midway ..).mpr there⟩, ?_⟩
  have letters : addNew nfa.alphabet symbol = nfa.alphabet := by
    rw [addNew, lettered]
    rfl
  have nodes (composite : Composite) : (if composite.name = source then
      (Label.text composite.name, (⟨composite.members.map .text,
        (moves composite.name).put symbol (.text goal)⟩ : Node))
      else (.text composite.name, ⟨composite.members.map .text, moves composite.name⟩)) =
      (.text composite.name, ⟨composite.members.map .text,
        Function.update moves source ((moves source).put symbol (.text goal)) composite.name⟩) := by
    by_cases same : composite.name = source
    · subst same
      simp
    · simp [same]
  simp [DFA.moved, midway, assemble, Table.modify, letters, nodes]

theorem takeUp_eq {log : List Event} (members : target.members.Nodup)
    (new : ∀ known ∈ met, known.name ≠ target.name) (unmoved : moves target.name = .empty) :
    nfa.takeUp target ⟨nfa.midway naming start met moves, met, pending, log⟩ =
      .ok () ⟨nfa.midway naming start (target :: met) moves, target :: met, target :: pending,
        log ++ [addedEvent target]⟩ := by
  have added : (nfa.midway naming start met moves).perform (nfa.stateCall target) = _ :=
    perform_stateCall members new unmoved
  rw [takeUp, modify_bind, bind_of_ok _ (change_of_ok added), announce, modify_bind]
  rfl

theorem narration_cons (some : met ≠ []) (target : Composite) :
    narration naming start (target :: met) = narration naming start met ++ [addedEvent target] := by
  have long : 1 ≤ met.reverse.length := by
    rw [List.length_reverse]
    exact List.length_pos_of_ne_nil some
  simp [narration, List.drop_append_of_le_length long]

theorem receive_of_new (some : met ≠ []) (members : target.members.Nodup)
    (new : met.find? (· == target) = none) (unmoved : moves target.name = .empty) :
    nfa.receive target (nfa.underway naming start met pending moves) =
      .ok () (nfa.underway naming start (target :: met) (target :: pending) moves) := by
  have names : ∀ known ∈ met, known.name ≠ target.name := by simpa using List.find?_eq_none.mp new
  rw [receive, get_bind]
  simp only [underway, new, narration_cons some]
  exact takeUp_eq members names unmoved

theorem receive_of_known {known : Composite} (found : met.find? (· == target) = some known)
    (same : known.members = target.members) :
    nfa.receive target (nfa.underway naming start met pending moves) =
      .ok () (nfa.underway naming start met pending moves) := by
  rw [receive, get_bind]
  simp only [underway, found, same, BEq.rfl, if_true]
  rfl

variable {current : Composite} {symbol : Label}

theorem lead_of_admitted {before : Building} (leads : nfa.successor? naming current.states symbol = some target)
    (sane : target.fault = none) (lettered : symbol ∈ nfa.alphabet) (real : (symbol == nfa.epsilon) = false)
    (received : nfa.receive target before = .ok () (nfa.underway naming start met pending moves))
    (here : ∃ known ∈ met, known.name = current.name) (there : ∃ known ∈ met, known.name = target.name) :
    nfa.lead naming current symbol before = .ok () (nfa.underway naming start met pending
      (Function.update moves current.name ((moves current.name).put symbol (.text target.name)))) := by
  have contained : nfa.alphabet.contains symbol = true :=
    List.contains_iff_exists_mem_beq.mpr ⟨symbol, lettered, BEq.rfl⟩
  simp only [lead, leads, sane]
  rw [bind_of_ok _ received]
  exact change_of_ok (perform_addTransition real contained here there)

theorem lead_of_refused {before : Building} (leads : nfa.successor? naming current.states symbol = some target)
    (refused : (nfa.compositeSearch naming).admits (before.found.find? (· == target)) target = false) :
    nfa.lead naming current symbol before = .error (target.fault.getD (.sharedName target.name)) before := by
  cases fault : target.fault with
  | some error =>
      simp only [lead, leads, fault]
      rfl
  | none =>
      simp only [compositeSearch, fault, Option.isNone_none, Bool.true_and] at refused
      obtain ⟨known, found, differs⟩ : ∃ known, before.found.find? (· == target) = some known ∧
          (known.members == target.members) = false := by
        cases found : before.found.find? (· == target) with
        | none =>
            rw [found] at refused
            simp at refused
        | some known =>
            rw [found] at refused
            exact ⟨known, rfl, refused⟩
      have thrown : nfa.receive target before = .error (.sharedName target.name) before := by
        rw [receive, get_bind]
        simp only [found, differs]
        rfl
      simp only [lead, leads, fault]
      rw [bind_of_error _ thrown]
      rfl

theorem movesOn_concat_of_none (leads : nfa.successor? naming current.states symbol = none) (read : List Label) :
    nfa.movesOn naming (read ++ [symbol]) current = nfa.movesOn naming read current := by
  simp [movesOn, leads]

theorem movesOn_concat (alphabet : Apart nfa.alphabet) {read unread : List Label}
    (split : read ++ symbol :: unread = nfa.alphabet)
    (leads : nfa.successor? naming current.states symbol = some target) :
    nfa.movesOn naming (read ++ [symbol]) current =
      (nfa.movesOn naming read current).put symbol (.text target.name) := by
  have apart : Apart (read.filter (fun symbol => (nfa.successor? naming current.states symbol).isSome) ++
      symbol :: unread) := (split ▸ alphabet).sublist ((List.filter_sublist ..).append_right _)
  rw [← keys_movesOn] at apart
  have absent : (nfa.movesOn naming read current).contains symbol = false := by
    rw [Table.contains_eq_contains_keys]
    exact contains_eq_false_of_apart apart
  rw [Table.put_of_absent (List.pairwise_append.mp apart).1 absent]
  simp [movesOn, leads]

end Lead

end NFA

end FiniteAutomata
