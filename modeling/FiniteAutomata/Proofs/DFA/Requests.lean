import FiniteAutomata.Proofs.DFA.Entries
import FiniteAutomata.Proofs.DFA.Following

set_option autoImplicit false

/-!
What any run of calls on a deterministic automaton leaves behind, told by the calls. The first call that adds a state
settles which names the state stands for, any call can make it final, and of the moves that were asked for on a symbol
the latest one counts. The table of transitions has one entry for each state and symbol that a move was asked for.
-/

namespace FiniteAutomata

namespace DFA

/-- The names that a call gives to the state to stand for. -/
def Command.members? (state : Label) : Command → Option (List Label)
  | .addState name members | .addFinal name members => if name == state then some members else none
  | .addSymbol _ | .addTransition _ _ _ => none

def Command.final? : Command → Option Label
  | .addFinal name _ => some name
  | .addState _ _ | .addSymbol _ | .addTransition _ _ _ => none

def Command.symbol? : Command → Option Label
  | .addSymbol symbol | .addTransition _ symbol _ => some symbol
  | .addState _ _ | .addFinal _ _ => none

def Command.pair? : Command → Option (Label × Label)
  | .addTransition source symbol _ => some (source, symbol)
  | .addState _ _ | .addFinal _ _ | .addSymbol _ => none

/-- Where a call leads the state on the symbol. -/
def Command.target? (state symbol : Label) : Command → Option Label
  | .addTransition source label target => if (source, label) == (state, symbol) then some target else none
  | .addState _ _ | .addFinal _ _ | .addSymbol _ => none

def firstMembers (commands : List Command) (state : Label) : Option (List Label) :=
  (commands.filterMap (Command.members? state)).head?

def latestTarget (done : List Command) (state symbol : Label) : Option Label :=
  (done.filterMap (Command.target? state symbol)).getLast?

/-- The calls that were not refused. -/
def performed (dfa : DFA) : List Command → List Command
  | [] => []
  | command :: rest =>
      match dfa.perform command with
      | .ok changed => command :: changed.performed rest
      | .error _ => dfa.performed rest

variable {dfa changed : DFA}

theorem firstMembers_append (first second : List Command) (state : Label) :
    firstMembers (first ++ second) state = (firstMembers first state).or (firstMembers second state) := by
  rw [firstMembers, List.filterMap_append, List.head?_append]
  rfl

theorem latestTarget_append (first second : List Command) (state symbol : Label) :
    latestTarget (first ++ second) state symbol =
      (latestTarget second state symbol).or (latestTarget first state symbol) := by
  rw [latestTarget, List.filterMap_append, List.getLast?_append]
  rfl

@[simp] theorem firstMembers_singleton (command : Command) (state : Label) :
    firstMembers [command] state = command.members? state := by
  cases told : command.members? state <;> simp [firstMembers, told]

@[simp] theorem latestTarget_singleton (command : Command) (state symbol : Label) :
    latestTarget [command] state symbol = command.target? state symbol := by
  cases told : command.target? state symbol <;> simp [latestTarget, told]

theorem isSome_latestTarget (done : List Command) (state symbol : Label) :
    (latestTarget done state symbol).isSome = (done.filterMap Command.pair?).contains (state, symbol) := by
  -- a move on the pair was asked for exactly if one of them is the latest
  induction done with
  | nil => rfl
  | cons command rest ih =>
      have split := latestTarget_append [command] rest state symbol
      rw [List.singleton_append, latestTarget_singleton] at split
      rw [split, Option.isSome_or, ih, List.filterMap_cons]
      cases command with
      | addTransition source label target =>
          rw [Command.pair?, List.contains_cons, Bool.or_comm, BEq.comm, Command.target?]
          split <;> simp_all
      | addState | addFinal | addSymbol => simp [Command.pair?, Command.target?]

theorem replay_induction (dfa : DFA) {P : DFA → List Command → Prop} (initial : P dfa [])
    (step : ∀ before done command after, P before done → before.perform command = .ok after →
      P after (done ++ [command])) (commands : List Command) :
    P (dfa.replay commands) (dfa.performed commands) := by
  have onward (current : DFA) (done : List Command) (holds : P current done) :
      P (current.replay commands) (done ++ current.performed commands) := by
    induction commands generalizing current done with
    | nil => simpa [performed] using holds
    | cons command rest ih =>
        cases outcome : current.perform command with
        | error error => simpa [replay, attempt, performed, outcome] using ih current done holds
        | ok after =>
            have next := ih after (done ++ [command]) (step current done command after holds outcome)
            simpa [replay, attempt, performed, outcome] using next
  exact onward dfa [] initial

/-- A reading that makes nothing of the calls that can be refused is the same for the calls that were performed. -/
theorem filterMap_performed {α : Type} (reading : Command → Option α)
    (symbols : ∀ symbol, reading (.addSymbol symbol) = none)
    (transitions : ∀ source symbol target, reading (.addTransition source symbol target) = none)
    (dfa : DFA) (commands : List Command) :
    (dfa.performed commands).filterMap reading = commands.filterMap reading := by
  induction commands generalizing dfa with
  | nil => rfl
  | cons command rest ih =>
      cases outcome : dfa.perform command with
      | ok changed => simp [performed, outcome, List.filterMap_cons, ih]
      | error error =>
          have unread : reading command = none := by
            cases command with
            | addState | addFinal => simp [perform] at outcome
            | addSymbol symbol => exact symbols symbol
            | addTransition source symbol target => exact transitions source symbol target
          simp [performed, outcome, unread, ih]

section Steps

/-- The names that the state stands for, if it is a state. -/
def members? (dfa : DFA) (state : Label) : Option (List Label) :=
  (dfa.states.get? state).map Node.members

theorem members?_addState (dfa : DFA) (name : Label) (members : List Label) (state : Label) :
    (dfa.addState name members).members? state =
      (dfa.members? state).or (if name == state then some (members.foldl addNew []) else none) := by
  simp only [members?, addState, Table.get?_putNew]
  by_cases same : (name == state) = true
  · have present : dfa.states.contains name = (dfa.states.get? state).isSome := by
      rw [Table.contains, dfa.states.get?_congr same]
    cases found : dfa.states.get? state <;> simp [same, present, found]
  · simp [same]

theorem members?_moved (dfa : DFA) (source symbol target state : Label) :
    (dfa.moved source symbol target).members? state = dfa.members? state := by
  simp only [members?, moved, Table.get?_modify]
  split
  · cases dfa.states.get? state <;> rfl
  · rfl

theorem target?_addState (dfa : DFA) (name : Label) (members : List Label) (state symbol : Label) :
    (dfa.addState name members).target? state symbol = dfa.target? state symbol := by
  simp only [target?, moves, addState, Table.get?_putNew]
  split
  · -- a state that is new has no moves, and it had none before it was added
    rename_i new
    obtain ⟨same, absent⟩ := Bool.and_eq_true_iff.mp new
    have unknown : dfa.states.get? state = none := by
      rw [← dfa.states.get?_congr same]
      simpa [Table.contains] using absent
    simp [unknown]
  · rfl

theorem target?_moved {source : Label} (known : dfa.hasState source = true) (symbol target state label : Label) :
    (dfa.moved source symbol target).target? state label =
      if (source, symbol) == (state, label) then some target else dfa.target? state label := by
  simp only [target?, moves, moved, Table.get?_modify, prod_beq_iff]
  by_cases here : (source == state) = true
  · rw [hasState_congr here] at known
    obtain ⟨node, found⟩ := (dfa.hasState_iff_exists_node state).mp known
    simp [here, found]
  · simp [here]

variable {command : Command} (success : dfa.perform command = .ok changed)
include success

theorem members?_perform (state : Label) : changed.members? state =
    (dfa.members? state).or ((command.members? state).map fun given => given.foldl addNew []) := by
  cases command with
  | addState name members | addFinal name members =>
      obtain rfl := Except.ok.inj success
      have added := members?_addState dfa name members state
      rw [Command.members?, apply_ite (Option.map _)]
      exact added
  | addSymbol symbol =>
      obtain ⟨-, rfl⟩ := (addSymbol_eq_ok_iff ..).mp success
      simp [Command.members?, members?]
  | addTransition source symbol target =>
      obtain ⟨-, rfl⟩ := (addTransition_eq_ok_iff ..).mp success
      simp [Command.members?, members?_moved]

theorem target?_perform (state symbol : Label) :
    changed.target? state symbol = (command.target? state symbol).or (dfa.target? state symbol) := by
  cases command with
  | addState name members | addFinal name members =>
      obtain rfl := Except.ok.inj success
      exact target?_addState dfa name members state symbol
  | addSymbol label =>
      obtain ⟨-, rfl⟩ := (addSymbol_eq_ok_iff ..).mp success
      rfl
  | addTransition source label target =>
      obtain ⟨⟨-, known, -⟩, rfl⟩ := (addTransition_eq_ok_iff ..).mp success
      rw [target?_moved known, Command.target?]
      split <;> rfl

theorem isFinal_perform (state : Label) :
    changed.isFinal state = (dfa.isFinal state || command.final?.toList.contains state) := by
  cases command with
  | addState name members =>
      obtain rfl := Except.ok.inj success
      simp [Command.final?, isFinal, addState]
  | addFinal name members =>
      obtain rfl := Except.ok.inj success
      rw [isFinal_addFinal, BEq.comm]
      simp [Command.final?]
  | addSymbol symbol =>
      obtain ⟨-, rfl⟩ := (addSymbol_eq_ok_iff ..).mp success
      simp [Command.final?, isFinal]
  | addTransition source symbol target =>
      obtain ⟨-, rfl⟩ := (addTransition_eq_ok_iff ..).mp success
      simp [Command.final?, isFinal, moved]

theorem contains_alphabet_perform (symbol : Label) : changed.alphabet.contains symbol =
    (dfa.alphabet.contains symbol || command.symbol?.toList.contains symbol) := by
  cases command with
  | addState | addFinal =>
      obtain rfl := Except.ok.inj success
      simp [Command.symbol?, addState, addFinal]
  | addSymbol other =>
      obtain ⟨-, rfl⟩ := (addSymbol_eq_ok_iff ..).mp success
      simp [Command.symbol?, contains_addNew]
  | addTransition source label target =>
      obtain ⟨-, rfl⟩ := (addTransition_eq_ok_iff ..).mp success
      simp [Command.symbol?, moved, contains_addNew]

end Steps

section Runs

variable (initial epsilon : Label) (commands : List Command)

theorem members?_replay (state : Label) : ((empty initial epsilon).replay commands).members? state =
    (firstMembers commands state).map fun given => given.foldl addNew [] := by
  have recorded := replay_induction (empty initial epsilon) (P := fun reached done =>
    reached.members? state = (firstMembers done state).map fun given => given.foldl addNew []) rfl
    (fun before done command after earlier success => by
      rw [members?_perform success, earlier, firstMembers_append, firstMembers_singleton]
      cases firstMembers done state <;> rfl) commands
  rwa [firstMembers, filterMap_performed _ (fun _ => rfl) (fun _ _ _ => rfl)] at recorded

theorem target?_replay (state symbol : Label) :
    ((empty initial epsilon).replay commands).target? state symbol =
      latestTarget ((empty initial epsilon).performed commands) state symbol := by
  refine replay_induction _ (P := fun reached done => reached.target? state symbol = latestTarget done state symbol)
    rfl (fun before done command after earlier success => ?_) commands
  rw [target?_perform success, earlier, latestTarget_append, latestTarget_singleton]

theorem isFinal_replay (state : Label) : ((empty initial epsilon).replay commands).isFinal state =
    (commands.filterMap Command.final?).contains state := by
  have recorded := replay_induction (empty initial epsilon) (P := fun reached done =>
    reached.isFinal state = (done.filterMap Command.final?).contains state) rfl
    (fun before done command after earlier success => by
      rw [isFinal_perform success, earlier, List.filterMap_append, List.contains_append]
      cases told : command.final? <;> simp [told]) commands
  rwa [filterMap_performed _ (fun _ => rfl) (fun _ _ _ => rfl)] at recorded

theorem contains_alphabet_replay (symbol : Label) :
    ((empty initial epsilon).replay commands).alphabet.contains symbol =
      (((empty initial epsilon).performed commands).filterMap Command.symbol?).contains symbol := by
  refine replay_induction _ (P := fun reached done => reached.alphabet.contains symbol =
    (done.filterMap Command.symbol?).contains symbol) rfl
    (fun before done command after earlier success => ?_) commands
  rw [contains_alphabet_perform success, earlier, List.filterMap_append, List.contains_append]
  cases told : command.symbol? <;> simp [told]

end Runs

/-- What an automaton tells about itself, by the calls that were made on it and those that were performed. -/
structure Accounts (dfa : DFA) (epsilon : Label) (commands done : List Command) : Prop where
  states : ∀ state, dfa.hasState state = true ↔ Added commands state
  members : ∀ state given, firstMembers commands state = some given →
    ∃ found, dfa.members state = .ok found ∧ Apart found ∧ ∀ member, found.contains member = given.contains member
  strangers : ∀ state, firstMembers commands state = none → dfa.members state = .error (.unknownState state)
  finals : ∀ state, dfa.isFinal state = (commands.filterMap Command.final?).contains state
  next : ∀ state symbol, (symbol == epsilon) = false →
    dfa.next state symbol = .ok ((latestTarget done state symbol).getD .null)
  alphabet : ∀ symbol, dfa.alphabet.contains symbol = (done.filterMap Command.symbol?).contains symbol
  real : ∀ symbol ∈ dfa.alphabet, (symbol == epsilon) = false
  single : Apart dfa.table.keys
  pairs : ∀ pair, dfa.table.keys.contains pair = (done.filterMap Command.pair?).contains pair
  ends : ∀ source symbol target, ((source, symbol), target) ∈ dfa.transitionTable →
    dfa.hasState source = true ∧ dfa.hasState target = true ∧ latestTarget done source symbol = some target

theorem members_eq (dfa : DFA) (state : Label) :
    dfa.members state = (dfa.members? state).elim (.error (.unknownState state)) .ok := by
  cases found : dfa.states.get? state <;> simp [members, members?, found]

/-- After any run the calls tell what the automaton says about itself. -/
theorem accounts_replay (initial epsilon : Label) (commands : List Command) :
    ((empty initial epsilon).replay commands).Accounts epsilon commands
      ((empty initial epsilon).performed commands) := by
  have regular := (regular_empty initial epsilon).replay commands
  have marker : ((empty initial epsilon).replay commands).epsilon = epsilon := (frame_replay _ commands).2
  have members := members?_replay initial epsilon commands
  have targets := target?_replay initial epsilon commands
  have states := hasState_replay_empty initial epsilon commands
  have finals := isFinal_replay initial epsilon commands
  have alphabet := contains_alphabet_replay initial epsilon commands
  generalize (empty initial epsilon).replay commands = dfa at *
  generalize (empty initial epsilon).performed commands = done at *
  subst marker
  constructor
  case states => exact states
  case finals => exact finals
  case alphabet => exact alphabet
  case real => exact regular.real
  case single => exact regular.apart_table
  case members =>
    intro state given first
    refine ⟨given.foldl addNew [], by simp [members_eq, members, first],
      apart_foldl_addNew given List.Pairwise.nil, fun member => ?_⟩
    simp [contains_foldl_addNew]
  case strangers =>
    intro state none
    simp [members_eq, members, none]
  case next =>
    intro state symbol real
    rw [next_of_real state real, targets]
  case pairs =>
    rintro ⟨source, symbol⟩
    rw [← isSome_latestTarget, ← targets, ← regular.get?_table, ← Table.contains, Table.contains_eq_contains_keys]
  case ends =>
    intro source symbol target entry
    have leads := regular.target?_of_entry entry
    obtain ⟨begins, -, -, ends⟩ := regular.target leads
    exact ⟨begins, ends, (targets source symbol).symm.trans leads⟩

/-- A run that adds a state again as final, replaces a move, and asks for moves that are refused. -/
def addedAgain : List Command := [.addState (.int 1) [.text "p"], .addFinal (.truth true) [.text "q"],
  .addState (.text "t") [], .addTransition (.int 1) (.text "a") (.text "t"),
  .addTransition (.truth true) (.text "a") (.int 1), .addTransition (.text "t") (.text "e") (.text "t"),
  .addTransition (.text "t") (.text "b") (.text "u")]

theorem accounts_replay_addedAgain :
    (∃ found, ((empty (.text "s") (.text "e")).replay addedAgain).members (.truth true) = .ok found ∧
      found.contains (.text "p") = true ∧ found.contains (.text "q") = false) ∧
    ((empty (.text "s") (.text "e")).replay addedAgain).isFinal (.int 1) = true ∧
    ((empty (.text "s") (.text "e")).replay addedAgain).next (.int 1) (.text "a") = .ok (.int 1) ∧
    ((empty (.text "s") (.text "e")).replay addedAgain).alphabet.contains (.text "b") = false ∧
    ((empty (.text "s") (.text "e")).replay addedAgain).table.keys.contains (.text "t", .text "e") = false := by
  have accounts := accounts_replay (.text "s") (.text "e") addedAgain
  obtain ⟨found, members, -, same⟩ := accounts.members (.truth true) [.text "p"] (by rfl)
  refine ⟨⟨found, members, ?_, ?_⟩, ?_, ?_, ?_, ?_⟩
  · rw [same]; rfl
  · rw [same]; rfl
  · rw [accounts.finals]; rfl
  · exact accounts.next (.int 1) (.text "a") (by rfl)
  · rw [accounts.alphabet]; rfl
  · rw [accounts.pairs]; rfl

end DFA

end FiniteAutomata
