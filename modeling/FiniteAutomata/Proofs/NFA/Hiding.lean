import FiniteAutomata.Proofs.NFA.Triples

set_option autoImplicit false

/-!
Which edges are still shown when a state is declared. An ordinary state hides none of them. A new final state hides
an ordinary one of its name, and with it the edges that leave it, although they are followed as before.
-/

namespace FiniteAutomata

theorem find?_insert_iff {α : Type} {test : α → Bool} {front back : List α} {added item : α}
    (different : item ≠ added) : (front ++ added :: back).find? test = some item ↔
      (front ++ back).find? test = some item ∧ ¬ (test added = true ∧ front.find? test = none) := by
  rw [List.find?_append, List.find?_append, List.find?_cons]
  cases front.find? test <;> cases test added <;> simp [different.symm]

theorem Graph.labels_eq_nil {graph : Graph} {state : State}
    (untouched : ∀ edge ∈ graph.edges, edge.source ≠ state.serial) : graph.labels state = [] := by
  have none : (graph.edges.filter fun edge => edge.source == state.serial) = [] := by
    simpa using untouched
  rw [labels, none]
  rfl

namespace NFA

variable {nfa changed : NFA}

theorem isSome_find?_mono (within : ∀ state ∈ nfa.declared, state ∈ changed.declared) {name : Label}
    (known : (nfa.find? name).isSome = true) : (changed.find? name).isSome = true := by
  rw [find?, List.find?_isSome] at known ⊢
  obtain ⟨state, present, named⟩ := known
  exact ⟨state, within state present, named⟩

theorem perform_addState (nfa : NFA) {text : String} (filled : text ≠ "") : nfa.perform (.addState (.text text)) =
    .ok { nfa with ordinary := addNew nfa.ordinary (nfa.graph.born text filled), graph := nfa.graph.grown } := by
  have born := (nfa.graph.newState_eq_ok_iff _ _ _).mpr ⟨text, filled, rfl, rfl, rfl⟩
  simp only [perform, addState, born, bind, Except.bind, pure, Except.pure]

theorem perform_addFinal (nfa : NFA) {text : String} (filled : text ≠ "") : nfa.perform (.addFinal (.text text)) =
    .ok { nfa with finals := addNew nfa.finals (nfa.graph.born text filled), graph := nfa.graph.grown } := by
  have born := (nfa.graph.newState_eq_ok_iff _ _ _).mpr ⟨text, filled, rfl, rfl, rfl⟩
  simp only [perform, addFinal, born, bind, Except.bind, pure, Except.pure]

/-- The name is that of the start or of a final state. -/
def Foremost (nfa : NFA) (name : String) : Prop :=
  ∃ state ∈ nfa.initial.toList ++ nfa.finals, state.name = name

section Adding

variable (graph : Graph) {added state : State}

theorem current_addState (different : state ≠ added) :
    Current { nfa with ordinary := addNew nfa.ordinary added, graph := graph } state ↔ nfa.Current state := by
  simp only [Current, find?, declared, addNew]
  split
  · rfl
  · rw [← List.append_assoc, find?_insert_iff different, List.append_nil, and_iff_left_iff_imp]
    rintro found ⟨-, none⟩
    rw [none] at found
    simp at found

/-- A new final state takes over its name from an ordinary one, but not from the start or another final state. -/
theorem current_addFinal (different : state ≠ added) :
    Current { nfa with finals := addNew nfa.finals added, graph := graph } state ↔
      nfa.Current state ∧ ¬ (state.name = added.name ∧ ¬ nfa.Foremost added.name) := by
  simp only [Current, find?, declared, addNew]
  split
  · rename_i present
    obtain ⟨known, here, same⟩ := (State.contains_iff ..).mp present
    have foremost : nfa.Foremost added.name := ⟨known, List.mem_append_right _ here, same⟩
    simp [foremost]
  · rw [← List.append_assoc, List.append_assoc, List.singleton_append, find?_insert_iff different]
    refine and_congr_right fun _ => not_congr ?_
    simp only [Label.text_beq, beq_iff_eq, List.find?_eq_none]
    constructor
    · rintro ⟨same, none⟩
      refine ⟨same.symm, ?_⟩
      rintro ⟨known, here, name⟩
      exact none known here (name.trans same)
    · rintro ⟨same, hidden⟩
      exact ⟨same.symm, fun known here name => hidden ⟨known, here, name.trans same⟩⟩

end Adding

/-- `after` shows the edges that `before` shows, but for those that leave lost names. -/
structure KeepsBut (before after : NFA) (lost : String → Prop) : Prop where
  triples : ∃ earlier later, before.triples = .ok earlier ∧ after.triples = .ok later ∧
    ∀ triple, triple ∈ later ↔ triple ∈ earlier ∧ ¬ lost triple.1
  successors : ∀ operand name, operand.name? = some (.text name) → (before.find? (.text name)).isSome = true →
    ∀ symbol, (symbol == before.epsilon) = false → ∃ earlier later,
      before.successorNames operand symbol = .ok earlier ∧ after.successorNames operand symbol = .ok later ∧
        ∀ target, target ∈ later ↔ target ∈ earlier ∧ ¬ lost name

/-- Both show the same edges. -/
def ShowsAlike (before after : NFA) : Prop :=
  before.KeepsBut after fun _ => False

theorem keepsBut_of_shows {before after : NFA} {lost : String → Prop} (soundBefore : before.graph.Sound)
    (soundAfter : after.graph.Sound) (epsilon : after.epsilon = before.epsilon)
    (known : ∀ name, (before.find? name).isSome = true → (after.find? name).isSome = true)
    (shows : ∀ triple, after.Shows triple ↔ before.Shows triple ∧ ¬ lost triple.1) :
    before.KeepsBut after lost where
  triples := by
    have earlier := triples_of_sound soundBefore
    have later := triples_of_sound soundAfter
    refine ⟨_, _, earlier, later, fun triple => ?_⟩
    have told := shows triple
    simpa only [Shows, earlier, later, Except.ok.injEq, exists_eq_left'] using told
  successors operand name named here symbol real := by
    have otherReal : (symbol == after.epsilon) = false := epsilon ▸ real
    obtain ⟨earlier, given, before⟩ := exists_successorNames soundBefore named here real
    obtain ⟨later, found, after⟩ := exists_successorNames soundAfter named (known _ here) otherReal
    refine ⟨earlier, later, given, found, fun target => ?_⟩
    rw [before, after]
    simp only [shows, ← and_assoc, exists_and_right]

theorem KeepsBut.shows_iff {before after : NFA} {lost : String → Prop} (keeps : before.KeepsBut after lost)
    (triple : String × Label × String) : after.Shows triple ↔ before.Shows triple ∧ ¬ lost triple.1 := by
  obtain ⟨earlier, later, given, found, same⟩ := keeps.triples
  simpa only [Shows, given, found, Except.ok.injEq, exists_eq_left'] using same triple

/-- Nothing is lost with names that no edge which is shown leaves. -/
theorem KeepsBut.showsAlike {before after : NFA} {lost : String → Prop} (keeps : before.KeepsBut after lost)
    (sound : before.graph.Sound) (unshown : ∀ name, lost name → ∀ label target, ¬ before.Shows (name, label, target)) :
    before.ShowsAlike after where
  triples := by
    obtain ⟨earlier, later, given, found, same⟩ := keeps.triples
    refine ⟨earlier, later, given, found, fun triple => ?_⟩
    rw [same, and_congr_right_iff]
    intro present
    exact iff_of_true (fun gone => unshown _ gone _ _ ⟨earlier, given, present⟩) not_false
  successors operand name named here symbol real := by
    obtain ⟨earlier, later, given, found, same⟩ := keeps.successors operand name named here symbol real
    obtain ⟨names, listed, told⟩ := exists_successorNames sound named here real
    obtain rfl := Except.ok.inj (given.symm.trans listed)
    refine ⟨earlier, later, given, found, fun target => ?_⟩
    rw [same, and_congr_right_iff]
    intro present
    obtain ⟨label, -, shown⟩ := (told target).mp present
    exact iff_of_true (fun gone => unshown _ gone _ _ shown) not_false

section Grown

variable {text : String} (filled : text ≠ "") (regular : nfa.Regular)
include regular

theorem Regular.labels_born : nfa.graph.labels (nfa.graph.born text filled) = [] := by
  refine Graph.labels_eq_nil fun edge present => ?_
  have below := regular.rooted edge present
  exact Nat.ne_of_lt below

theorem Regular.shows_iff_of_current {lost : String → Prop} (edges : changed.graph.edges = nfa.graph.edges)
    (current : ∀ state, state ≠ nfa.graph.born text filled →
      (changed.Current state ↔ nfa.Current state ∧ ¬ lost state.name)) (triple : String × Label × String) :
    changed.Shows triple ↔ nfa.Shows triple ∧ ¬ lost triple.1 := by
  obtain ⟨source, label, target⟩ := triple
  have sound : changed.graph.Sound := fun edge present => regular.sound edge (edges ▸ present)
  -- no edge leaves the new state, so that only states which were there before show any
  have old (state : State) (known : label ∈ nfa.graph.labels state) : state ≠ nfa.graph.born text filled := by
    rintro rfl
    rw [regular.labels_born] at known
    simp at known
  have labels (state : State) : changed.graph.labels state = nfa.graph.labels state := by
    simp only [Graph.labels, edges]
  have targets (state : State) : changed.graph.targets state label = nfa.graph.targets state label := by
    simp only [Graph.targets, edges]
  rw [NFA.shows_iff sound, NFA.shows_iff regular.sound]
  simp only [labels, targets]
  constructor
  · rintro ⟨state, here, rfl, known, leads⟩
    obtain ⟨before, kept⟩ := (current state (old state known)).mp here
    exact ⟨⟨state, before, rfl, known, leads⟩, kept⟩
  · rintro ⟨⟨state, before, rfl, known, leads⟩, kept⟩
    exact ⟨state, (current state (old state known)).mpr ⟨before, kept⟩, rfl, known, leads⟩

theorem Regular.keepsBut_of_current {lost : String → Prop} (edges : changed.graph.edges = nfa.graph.edges)
    (epsilon : changed.epsilon = nfa.epsilon) (within : ∀ state ∈ nfa.declared, state ∈ changed.declared)
    (current : ∀ state, state ≠ nfa.graph.born text filled →
      (changed.Current state ↔ nfa.Current state ∧ ¬ lost state.name)) : nfa.KeepsBut changed lost := by
  have sound : changed.graph.Sound := fun edge present => regular.sound edge (edges ▸ present)
  exact keepsBut_of_shows regular.sound sound epsilon (fun _ => isSome_find?_mono within)
    (regular.shows_iff_of_current filled edges current)

include filled

theorem Regular.exists_addState : ∃ added, nfa.perform (.addState (.text text)) = .ok added ∧
    nfa.ShowsAlike added := by
  refine ⟨_, nfa.perform_addState filled, regular.keepsBut_of_current filled rfl rfl ?_ ?_⟩
  · intro state present
    simp only [declared, List.mem_append, mem_addNew_iff] at present ⊢
    exact present.imp_right .inl
  · intro state different
    rw [current_addState nfa.graph.grown different]
    simp

theorem Regular.exists_addFinal : ∃ added, nfa.perform (.addFinal (.text text)) = .ok added ∧
    nfa.KeepsBut added fun name => name = text ∧ ¬ nfa.Foremost text := by
  refine ⟨_, nfa.perform_addFinal filled, regular.keepsBut_of_current filled rfl rfl ?_ ?_⟩
  · intro state present
    simp only [declared, List.mem_append, mem_addNew_iff] at present ⊢
    exact present.imp_left fun front => front.imp_right .inl
  · intro state different
    exact current_addFinal nfa.graph.grown different

end Grown

/-- After any run, declaring an ordinary state leaves the edges that are shown as they were. Declaring a final one
hides exactly those that leave its name, unless that is the name of the start or of a final state already. -/
theorem declaring_keeps_triples {epsilon : Label} {symbols : List Label} {fresh : NFA}
    (created : create epsilon symbols .empty = .ok fresh) (commands : List Command) {text : String}
    (filled : text ≠ "") :
    (∃ added, (fresh.replay commands).perform (.addState (.text text)) = .ok added ∧
      (fresh.replay commands).ShowsAlike added) ∧
    ∃ added, (fresh.replay commands).perform (.addFinal (.text text)) = .ok added ∧
      (fresh.replay commands).KeepsBut added
        (fun name => name = text ∧ ¬ (fresh.replay commands).Foremost text) ∧
      ((fresh.replay commands).ShowsAlike added ↔ (fresh.replay commands).Foremost text ∨
        ∀ label target, ¬ (fresh.replay commands).Shows (text, label, target)) := by
  have regular := (regular_of_create created).replay commands
  obtain ⟨added, success, keeps⟩ := regular.exists_addFinal filled
  refine ⟨regular.exists_addState filled, added, success, keeps, ?_⟩
  constructor
  · intro alike
    by_contra hidden
    obtain ⟨behind, shown⟩ := not_or.mp hidden
    push Not at shown
    obtain ⟨label, target, here⟩ := shown
    have still := (alike.shows_iff (text, label, target)).mpr ⟨here, not_false⟩
    exact ((keeps.shows_iff (text, label, target)).mp still).2 ⟨rfl, behind⟩
  · intro kept
    refine keeps.showsAlike regular.sound ?_
    rintro name ⟨rfl, behind⟩
    exact kept.resolve_left behind

/-- A run with an ordinary state in the middle of a word. -/
def middleState : List Command := [.setStart (.text "s"), .addState (.text "x"), .addFinal (.text "f"),
  .addTransition (.text "s") (.text "a") (.text "x"), .addTransition (.text "x") (.text "b") (.text "f")]

theorem triples_middleState : ((empty standardEpsilon .empty).replay middleState).triples =
    .ok [("s", .text "a", "x"), ("x", .text "b", "f")] := by rfl

theorem declaring_keeps_triples_middleState :
    create standardEpsilon [] .empty = .ok (empty standardEpsilon .empty) ∧ "x" ≠ "" ∧
      (∃ added, ((empty standardEpsilon .empty).replay middleState).perform (.addState (.text "x")) = .ok added ∧
        ((empty standardEpsilon .empty).replay middleState).ShowsAlike added) ∧
      ∃ added, ((empty standardEpsilon .empty).replay middleState).perform (.addFinal (.text "x")) = .ok added ∧
        added.Shows ("s", .text "a", "x") ∧ ¬ added.Shows ("x", .text "b", "f") ∧
        ¬ ((empty standardEpsilon .empty).replay middleState).ShowsAlike added := by
  have created : create standardEpsilon [] .empty = .ok (empty standardEpsilon .empty) := rfl
  have filled : "x" ≠ "" := by decide
  obtain ⟨ordinary, added, success, keeps, alike⟩ := declaring_keeps_triples created middleState filled
  have behind : ¬ ((empty standardEpsilon .empty).replay middleState).Foremost "x" := by
    have front : ((empty standardEpsilon .empty).replay middleState).initial.toList ++
        ((empty standardEpsilon .empty).replay middleState).finals =
          [⟨0, "s", by decide⟩, ⟨2, "f", by decide⟩] := by rfl
    rw [Foremost, front]
    simp
  have first : ((empty standardEpsilon .empty).replay middleState).Shows ("s", .text "a", "x") :=
    ⟨_, triples_middleState, by simp⟩
  have second : ((empty standardEpsilon .empty).replay middleState).Shows ("x", .text "b", "f") :=
    ⟨_, triples_middleState, by simp⟩
  refine ⟨created, filled, ordinary, added, success, ?_, ?_, ?_⟩
  · exact (keeps.shows_iff _).mpr ⟨first, by simp⟩
  · exact fun still => ((keeps.shows_iff _).mp still).2 ⟨rfl, behind⟩
  · intro same
    exact (alike.mp same).elim behind fun none => none _ _ second

/-- The edge that is no longer shown still leads to acceptance. -/
theorem addFinal_loses_triple :
    create standardEpsilon [] .empty = .ok (empty standardEpsilon .empty) ∧
      (∃ added, ((empty standardEpsilon .empty).replay middleState).perform (.addFinal (.text "x")) = .ok added) ∧
      ((empty standardEpsilon .empty).replay middleState).triples =
        .ok [("s", .text "a", "x"), ("x", .text "b", "f")] ∧
      ((empty standardEpsilon .empty).replay (middleState ++ [.addFinal (.text "x")])).triples =
        .ok [("s", .text "a", "x")] ∧
      ((empty standardEpsilon .empty).replay middleState).successorNames (.member (.label (.text "x")))
        (.text "b") = .ok ["f"] ∧
      ((empty standardEpsilon .empty).replay (middleState ++ [.addFinal (.text "x")])).successorNames
        (.member (.label (.text "x"))) (.text "b") = .ok [] ∧
      ((empty standardEpsilon .empty).replay (middleState ++ [.addFinal (.text "x")])).accept
        [.text "a", .text "b"] = .ok true :=
  ⟨rfl, ⟨_, rfl⟩, triples_middleState, by rfl, by rfl, by rfl, by rfl⟩

end NFA

end FiniteAutomata
