import FiniteAutomata.Proofs.DFA.Entries
import FiniteAutomata.Proofs.DFA.Tracing
import Mathlib.Data.Fintype.EquivFin

set_option autoImplicit false

/-!
Acceptance by the table of transitions. A route is a sequence of entries of the table, each of which begins where the
one before it ends. A word is accepted along a route to a final state, except that null, as a state, is taken for being
stuck: what comes after it is not read, and a word that gets stuck anywhere is accepted if null is final.
-/

namespace FiniteAutomata

/-- Finitely many labels do not equal all labels. -/
theorem exists_label_absent (labels : List Label) : ∃ label : Label, labels.contains label = false := by
  let number : Label → Option Int := fun label => match label.normal with
    | .int value => some value
    | _ => none
  obtain ⟨value, fresh⟩ := Infinite.exists_notMem_finset (labels.filterMap number).toFinset
  refine ⟨.int value, Bool.eq_false_iff.mpr fun present => fresh ?_⟩
  obtain ⟨label, here, same⟩ := List.contains_iff_exists_mem_beq.mp present
  have normal : Label.int value = label.normal := (Label.beq_iff ..).mp same
  rw [List.mem_toFinset, List.mem_filterMap]
  exact ⟨label, here, by simp [number, ← normal]⟩

namespace DFA

/-- The entries lead from the first state to the last. -/
def Chained : Label → List ((Label × Label) × Label) → Label → Prop
  | first, [], last => (first == last) = true
  | first, entry :: rest, last => (first == entry.1.1) = true ∧ Chained entry.2 rest last

/-- The symbols of the entries are those of the word. -/
def Spells (entries : List ((Label × Label) × Label)) (word : List Label) : Prop :=
  List.Forall₂ (fun entry symbol => (entry.1.2 == symbol) = true) entries word

/-- Entries of the table lead from the first state to the last and spell the word. -/
def Routed (dfa : DFA) (first : Label) (word : List Label) (last : Label) : Prop :=
  ∃ entries, (∀ entry ∈ entries, entry ∈ dfa.transitionTable) ∧ Chained first entries last ∧ Spells entries word

/-- The word leads from the start to a final state. -/
def Admits (dfa : DFA) (word : List Label) : Prop :=
  ∃ last, dfa.Routed dfa.initial word last ∧ dfa.isFinal last = true

/-- The word meets a missing entry. -/
def Strands (dfa : DFA) (word : List Label) : Prop :=
  ∀ last, ¬ dfa.Routed dfa.initial word last

/-- The word leads to null and goes on from there. -/
def CrossesNull (dfa : DFA) (word : List Label) : Prop :=
  ∃ before after, word = before ++ after ∧ before ≠ [] ∧ after ≠ [] ∧ dfa.Routed dfa.initial before .null

variable {dfa : DFA}

section Following

variable (regular : dfa.Regular)
include regular

theorem Regular.routed_iff (first : Label) (word : List Label) (last : Label) :
    dfa.Routed first word last ↔ ∃ found, dfa.follow first word = some found ∧ (found == last) = true := by
  induction word generalizing first with
  | nil => simp [Routed, Spells, Chained]
  | cons symbol rest ih =>
      constructor
      · rintro ⟨_, listed, chained, spelled⟩
        obtain ⟨⟨⟨source, label⟩, target⟩, entries, reads, later, rfl⟩ := List.forall₂_cons_right_iff.mp spelled
        obtain ⟨here, onward⟩ := List.forall_mem_cons.mp listed
        obtain ⟨begins, continues⟩ := chained
        obtain ⟨found, path, same⟩ := (ih target).mp ⟨entries, onward, continues, later⟩
        have step : dfa.target? first symbol = some target := by
          rw [← regular.target?_of_entry here]
          exact dfa.target?_congr begins (BEq.symm reads)
        exact ⟨found, by simp [step, path], same⟩
      · rintro ⟨found, path, same⟩
        obtain ⟨target, step, onward⟩ := Option.bind_eq_some_iff.mp path
        obtain ⟨entries, listed, chained, spelled⟩ := (ih target).mpr ⟨found, onward, same⟩
        rw [← regular.get?_table] at step
        obtain ⟨⟨source, label⟩, here, equal⟩ := (Table.exists_entry_iff regular.apart_table _ target).mp step
        obtain ⟨begins, reads⟩ := (prod_beq_iff ..).mp equal
        exact ⟨((source, label), target) :: entries, List.forall_mem_cons.mpr ⟨here, listed⟩,
          ⟨BEq.symm begins, chained⟩, List.Forall₂.cons reads spelled⟩

theorem Regular.admits_iff (word : List Label) :
    dfa.Admits word ↔ ∃ found, dfa.follow dfa.initial word = some found ∧ dfa.isFinal found = true := by
  simp only [Admits, regular.routed_iff]
  constructor
  · rintro ⟨last, ⟨found, path, same⟩, final⟩
    exact ⟨found, path, by rwa [dfa.isFinal_congr same]⟩
  · rintro ⟨found, path, final⟩
    exact ⟨found, ⟨found, path, BEq.rfl⟩, final⟩

theorem Regular.strands_iff (word : List Label) :
    dfa.Strands word ↔ dfa.follow dfa.initial word = none := by
  simp only [Strands, regular.routed_iff]
  cases path : dfa.follow dfa.initial word with
  | none => simp
  | some found => simpa using ⟨found, BEq.rfl⟩

theorem Regular.crossesNull_iff (word : List Label) : dfa.CrossesNull word ↔ ∃ before after,
    word = before ++ after ∧ before ≠ [] ∧ after ≠ [] ∧ dfa.follow dfa.initial before = some .null := by
  simp [CrossesNull, regular.routed_iff, Label.beq_null_iff]

theorem Regular.hasState_of_crossesNull {word : List Label} (crosses : dfa.CrossesNull word) :
    dfa.hasState .null = true := by
  obtain ⟨before, _, -, begun, -, path⟩ := (regular.crossesNull_iff word).mp crosses
  obtain ⟨symbol, rest, rfl⟩ := List.exists_cons_of_ne_nil begun
  obtain ⟨target, step, onward⟩ := Option.bind_eq_some_iff.mp path
  exact regular.hasState_follow (regular.target step).2.2.2 onward

end Following

section Reading

variable {word : List Label} {state symbol : Label}

theorem read_cons_stuck (real : (symbol == dfa.epsilon) = false)
    (stuck : (dfa.target? state symbol).getD .null = .null) (rest : List Label) :
    dfa.machine.read state (symbol :: rest) = .ok .null := by
  have step : dfa.machine.next state symbol = _ := next_of_real state real
  rw [stuck] at step
  rw [Machine.read_cons_ok _ step]
  rfl

theorem read_cons_onward {target : Label} (real : (symbol == dfa.epsilon) = false)
    (leads : dfa.target? state symbol = some target) (unstuck : target ≠ .null) (rest : List Label) :
    dfa.machine.read state (symbol :: rest) = dfa.machine.read target rest := by
  have step : dfa.machine.next state symbol = _ := next_of_real state real
  have moving : dfa.machine.isStuck target = false :=
    Bool.eq_false_iff.mpr fun stuck => unstuck ((isNull_iff target).mp stuck)
  rw [leads, Option.getD_some] at step
  rw [Machine.read_cons_ok _ step, moving]
  rfl

theorem read_of_stranded (unmarked : Unmarked dfa.epsilon word) (missing : dfa.follow state word = none) :
    dfa.machine.read state word = .ok .null := by
  induction word generalizing state with
  | nil => simp at missing
  | cons symbol rest ih =>
      obtain ⟨real, later⟩ := unmarked_cons.mp unmarked
      cases step : dfa.target? state symbol with
      | none => exact read_cons_stuck real (by simp [step]) rest
      | some target =>
          by_cases null : target = .null
          · exact read_cons_stuck real (by simp [step, null]) rest
          · rw [read_cons_onward real step null]
            exact ih later (by simpa [step] using missing)

theorem read_of_null {before after : List Label} (unmarked : Unmarked dfa.epsilon (before ++ after))
    (begun : before ≠ []) (path : dfa.follow state before = some .null) :
    dfa.machine.read state (before ++ after) = .ok .null := by
  induction before generalizing state with
  | nil => exact absurd rfl begun
  | cons symbol rest ih =>
      obtain ⟨real, later⟩ := unmarked_cons.mp unmarked
      obtain ⟨target, step, onward⟩ := Option.bind_eq_some_iff.mp path
      by_cases null : target = .null
      · exact read_cons_stuck real (by simp [step, null]) _
      · rw [List.cons_append, read_cons_onward real step null]
        -- a state that is not null goes on to null in at least one step more
        refine ih later ?_ onward
        rintro rfl
        exact null (Option.some.inj onward)

theorem read_of_clear {last : Label} (unmarked : Unmarked dfa.epsilon word)
    (path : dfa.follow state word = some last)
    (clear : ∀ before after, word = before ++ after → before ≠ [] → after ≠ [] →
      dfa.follow state before ≠ some .null) : dfa.machine.read state word = .ok last := by
  induction word generalizing state with
  | nil => exact congrArg Except.ok (Option.some.inj path)
  | cons symbol rest ih =>
      obtain ⟨real, later⟩ := unmarked_cons.mp unmarked
      obtain ⟨target, step, onward⟩ := Option.bind_eq_some_iff.mp path
      by_cases null : target = .null
      · -- the word ends here, since it does not go on from null
        have ended : rest = [] := by
          by_contra more
          exact clear [symbol] rest rfl (by simp) more (by simp [step, null])
        subst ended
        rw [read_cons_stuck real (by simp [step, null]), ← null, Option.some.inj onward]
      · rw [read_cons_onward real step null]
        refine ih later onward fun before after split begun goes crosses => ?_
        exact clear (symbol :: before) after (by simp [split]) (by simp) goes (by simpa [step] using crosses)

end Reading

section Accepting

variable (regular : dfa.Regular) {word : List Label} (unmarked : Unmarked dfa.epsilon word)
include regular unmarked

theorem Regular.accept_of_strands (strands : dfa.Strands word) : dfa.accept word = .ok (dfa.isFinal .null) :=
  accept_of_read (read_of_stranded unmarked ((regular.strands_iff word).mp strands))

theorem Regular.accept_of_crossesNull (crosses : dfa.CrossesNull word) :
    dfa.accept word = .ok (dfa.isFinal .null) := by
  obtain ⟨before, after, rfl, begun, -, path⟩ := (regular.crossesNull_iff word).mp crosses
  exact accept_of_read (read_of_null unmarked begun path)

theorem Regular.accept_of_routed {last : Label} (path : dfa.follow dfa.initial word = some last)
    (clear : ¬ dfa.CrossesNull word) : dfa.accept word = .ok (dfa.isFinal last) := by
  refine accept_of_read (read_of_clear unmarked path fun before after split begun goes null => ?_)
  exact clear ((regular.crossesNull_iff word).mpr ⟨before, after, split, begun, goes, null⟩)

/-- A word is accepted along a route that does not go on from null, or because it gets stuck and null is final. -/
theorem Regular.exists_accept : ∃ verdict, dfa.accept word = .ok verdict ∧
    (verdict = true ↔ dfa.Admits word ∧ ¬ dfa.CrossesNull word ∨
      dfa.isFinal .null = true ∧ (dfa.Strands word ∨ dfa.CrossesNull word)) := by
  by_cases crosses : dfa.CrossesNull word
  · exact ⟨_, regular.accept_of_crossesNull unmarked crosses, by simp [crosses]⟩
  cases path : dfa.follow dfa.initial word with
  | none =>
      have strands := (regular.strands_iff word).mpr path
      exact ⟨_, regular.accept_of_strands unmarked strands, by simp [regular.admits_iff, path, strands]⟩
  | some last =>
      refine ⟨_, regular.accept_of_routed unmarked path crosses, ?_⟩
      simp [regular.admits_iff, regular.strands_iff, path, crosses]

end Accepting

/-- How acceptance goes by the table of transitions. -/
structure AcceptsByRoute (dfa : DFA) (epsilon : Label) : Prop where
  answers : ∀ word, Unmarked epsilon word → ∃ verdict, dfa.accept word = .ok verdict ∧
    (verdict = true ↔ dfa.Admits word ∧ ¬ dfa.CrossesNull word ∨
      dfa.isFinal .null = true ∧ (dfa.Strands word ∨ dfa.CrossesNull word))
  faithful : (∀ word, Unmarked epsilon word → (dfa.accept word = .ok true ↔ dfa.Admits word)) ↔
    dfa.isFinal .null = false ∧ ∀ word, dfa.Admits word → ¬ dfa.CrossesNull word
  rejects : (∀ word, Unmarked epsilon word → dfa.Strands word → dfa.accept word = .ok false) ↔
    dfa.isFinal .null = false

theorem Regular.exists_stranded (regular : dfa.Regular) :
    ∃ word, Unmarked dfa.epsilon word ∧ dfa.Strands word := by
  obtain ⟨symbol, absent⟩ := exists_label_absent (dfa.epsilon :: dfa.alphabet)
  simp only [List.contains_cons, Bool.or_eq_false_iff] at absent
  refine ⟨[symbol], by simpa [Unmarked] using absent.1, (regular.strands_iff _).mpr ?_⟩
  cases step : dfa.target? dfa.initial symbol with
  | none => simp [step]
  | some target => simp [(regular.target step).2.2.1] at absent

theorem Regular.acceptsByRoute (regular : dfa.Regular) : dfa.AcceptsByRoute dfa.epsilon where
  answers _ unmarked := regular.exists_accept unmarked
  faithful := by
    constructor
    · intro agree
      have ordinary : dfa.isFinal .null = false := by
        obtain ⟨word, unmarked, strands⟩ := regular.exists_stranded
        apply Bool.eq_false_iff.mpr
        intro final
        obtain ⟨last, routed, -⟩ :=
          (agree word unmarked).mp (final ▸ regular.accept_of_strands unmarked strands)
        exact strands last routed
      refine ⟨ordinary, fun word admits crosses => ?_⟩
      obtain ⟨_, path, -⟩ := (regular.admits_iff word).mp admits
      have unmarked := regular.unmarked_of_follow path
      have accepted := (agree word unmarked).mpr admits
      simp [regular.accept_of_crossesNull unmarked crosses, ordinary] at accepted
    · rintro ⟨ordinary, clear⟩ word unmarked
      obtain ⟨verdict, answer, told⟩ := regular.exists_accept unmarked
      rw [answer, Except.ok.injEq, told]
      simpa [ordinary] using clear word
  rejects := by
    constructor
    · intro rejects
      obtain ⟨word, unmarked, strands⟩ := regular.exists_stranded
      exact Except.ok.inj ((regular.accept_of_strands unmarked strands).symm.trans (rejects word unmarked strands))
    · intro ordinary word unmarked strands
      rw [regular.accept_of_strands unmarked strands, ordinary]

/-- After any run words are accepted along routes, except that null is taken for being stuck. Where null is not added
as a state, a word is accepted if and only if some route along it leads to a final state. -/
theorem acceptsByRoute_replay (initial epsilon : Label) (commands : List Command) :
    ((empty initial epsilon).replay commands).AcceptsByRoute epsilon ∧
      (¬ Added commands .null → ∀ word, Unmarked epsilon word →
        (((empty initial epsilon).replay commands).accept word = .ok true ↔
          ((empty initial epsilon).replay commands).Admits word)) := by
  have regular := (regular_empty initial epsilon).replay commands
  have marker : ((empty initial epsilon).replay commands).epsilon = epsilon := (frame_replay _ commands).2
  have states := hasState_replay_empty initial epsilon commands .null
  have routes := marker ▸ regular.acceptsByRoute
  refine ⟨routes, fun absent => routes.faithful.mpr ⟨?_, fun word _ crosses => ?_⟩⟩
  · exact Bool.eq_false_iff.mpr fun final => absent (states.mp (regular.final _ final))
  · exact absent (states.mp (regular.hasState_of_crossesNull crosses))

/-- A run whose final state is named by a tuple, and its start by a number that is asked for as a truth value. -/
def tupleName : List Command := [.addState (.int 1) [], .addFinal (.tuple [.null]) [],
  .addTransition (.truth true) (.text "a") (.tuple [.null])]

theorem acceptsByRoute_replay_tupleName :
    ¬ Added tupleName .null ∧ Unmarked standardEpsilon [.text "a"] ∧
      ((empty (.truth true) standardEpsilon).replay tupleName).accept [.text "a"] = .ok true ∧
      ((empty (.truth true) standardEpsilon).replay tupleName).Admits [.text "a"] := by
  have absent : ¬ Added tupleName .null := by
    rintro ⟨command, asked, adds⟩
    simp only [tupleName, List.mem_cons, List.not_mem_nil, or_false] at asked
    rcases asked with rfl | rfl | rfl <;> simp [Command.Adds, Label.beq_null_iff] at adds
  have unmarked : Unmarked standardEpsilon [.text "a"] := List.forall_mem_singleton.mpr rfl
  obtain ⟨-, faithful⟩ := acceptsByRoute_replay (.truth true) standardEpsilon tupleName
  have accepted : ((empty (.truth true) standardEpsilon).replay tupleName).accept [.text "a"] = .ok true := by rfl
  exact ⟨absent, unmarked, accepted, (faithful absent _ unmarked).mp accepted⟩

/-- A run whose only final state is null. -/
def nullFinal : List Command := [.addState (.text "s") [], .addFinal .null []]

/-- A run with null on the way to a final state. -/
def nullBetween : List Command := [.addState (.text "s") [], .addState .null [], .addFinal (.text "f") [],
  .addTransition (.text "s") (.text "a") .null, .addTransition .null (.text "b") (.text "f")]

/-- As a final state null accepts what is missing, and as a state on the way it hides what follows. -/
theorem null_taken_for_stuck :
    Unmarked standardEpsilon [.text "a"] ∧ Unmarked standardEpsilon [.text "a", .text "b"] ∧
      ((empty (.text "s") standardEpsilon).replay nullFinal).accept [.text "a"] = .ok true ∧
      ¬ ((empty (.text "s") standardEpsilon).replay nullFinal).Admits [.text "a"] ∧
      ((empty (.text "s") standardEpsilon).replay nullBetween).accept [.text "a", .text "b"] = .ok false ∧
      ((empty (.text "s") standardEpsilon).replay nullBetween).Admits [.text "a", .text "b"] := by
  have final := (regular_empty (.text "s") standardEpsilon).replay nullFinal
  have between := (regular_empty (.text "s") standardEpsilon).replay nullBetween
  have unmarked (texts : List String) : Unmarked standardEpsilon (texts.map .text) :=
    List.forall_mem_map.mpr fun _ _ => rfl
  refine ⟨unmarked ["a"], unmarked ["a", "b"], by rfl, fun admits => ?_, by rfl,
    (between.admits_iff _).mpr ⟨.text "f", by rfl, by rfl⟩⟩
  obtain ⟨found, path, -⟩ := (final.admits_iff _).mp admits
  have stuck : ((empty (.text "s") standardEpsilon).replay nullFinal).follow (.text "s") [.text "a"] = none := by rfl
  exact absurd (path.symm.trans stuck) (by simp)

end DFA

end FiniteAutomata
