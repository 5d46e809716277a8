import FiniteAutomata.Proofs.Tables
import FiniteAutomata.Search

set_option autoImplicit false

/-!
What a search finds. With enough fuel it comes to its end by itself: either it meets, up to equality, all that
the successors lead to from the seeds, or it stops at an element that it could come to and that it does not
admit.
-/

namespace FiniteAutomata

variable {α : Type}

theorem Discipline.mem_join (discipline : Discipline) (fresh pending : List α) (element : α) :
    element ∈ discipline.join fresh pending ↔ element ∈ fresh ∨ element ∈ pending := by
  cases discipline <;> simp [join, or_comm]

theorem Discipline.length_join (discipline : Discipline) (fresh pending : List α) :
    (discipline.join fresh pending).length = fresh.length + pending.length := by
  cases discipline <;> simp [join, Nat.add_comm]

namespace Search

/-- What the successors lead to from `seeds` without leaving what is `inside`. -/
inductive Reaches (search : Search α) (seeds : List α) (inside : α → Prop) : α → Prop where
  | seed {element : α} : element ∈ seeds → inside element → Reaches search seeds inside element
  | step {element next : α} : Reaches search seeds inside element → next ∈ search.successors element →
      inside next → Reaches search seeds inside next

theorem Reaches.mono {search : Search α} {seeds : List α} {inside wider : α → Prop} {element : α}
    (reached : search.Reaches seeds inside element) (within : ∀ other, inside other → wider other) :
    search.Reaches seeds wider element := by
  induction reached with
  | seed present here => exact .seed present (within _ here)
  | step _ follows here ih => exact .step ih follows (within _ here)

/-- What the successors lead to from `seeds` at all. -/
abbrev Possible (search : Search α) (seeds : List α) : α → Prop :=
  search.Reaches seeds fun _ => True

variable [BEq α]

/-- No element equals one that came before it, the newest being first. -/
def Distinct (items : List α) : Prop :=
  items.Pairwise fun newer older => (older == newer) = false

theorem Distinct.eq [EquivBEq α] {items : List α} (distinct : Distinct items) {left right : α}
    (leftPresent : left ∈ items) (rightPresent : right ∈ items) (same : (left == right) = true) :
    left = right :=
  Apart.eq (distinct.imp beq_eq_false_comm) leftPresent rightPresent same

/-- An equal element was met, either this one or one in view of which this one is admitted. -/
def Settled (search : Search α) (met : List α) (candidate : α) : Prop :=
  ∃ known ∈ met, (known == candidate) = true ∧
    (known = candidate ∨ search.admits (some known) candidate = true)

theorem Settled.mono {search : Search α} {met larger : List α} {candidate : α}
    (settled : search.Settled met candidate) (within : ∀ element ∈ met, element ∈ larger) :
    search.Settled larger candidate := by
  obtain ⟨known, present, rest⟩ := settled
  exact ⟨known, within known present, rest⟩

/-- How `candidates` are met in view of `met`: those that are `new` come in front. -/
structure Meeting (search : Search α) (met candidates new : List α) (refused : Option α) : Prop where
  given : ∀ element ∈ new, element ∈ candidates ∧ search.admits none element = true
  distinct : Distinct met → Distinct (new ++ met)
  settled : refused = none → ∀ candidate ∈ candidates, search.Settled (new ++ met) candidate
  stopped : ∀ candidate, refused = some candidate → candidate ∈ candidates ∧
    search.admits ((new ++ met).find? (· == candidate)) candidate = false
  first : met = [] → refused = none → new.getLast? = candidates.head?

theorem meet_eq [EquivBEq α] (search : Search α) (met fresh candidates : List α) :
    ∃ new refused, search.meet met fresh candidates = (⟨new ++ met, refused⟩, new ++ fresh) ∧
      search.Meeting met candidates new refused := by
  induction candidates generalizing met fresh with
  | nil => exact ⟨[], none, rfl, by simp, id, by simp, by simp, by simp⟩
  | cons candidate rest ih =>
      simp only [meet]
      by_cases admitted : search.admits (met.find? (· == candidate)) candidate = true
      · rw [if_pos admitted]
        cases found : met.find? (· == candidate) with
        | none =>
            obtain ⟨new, refused, result, meeting⟩ := ih (candidate :: met) (candidate :: fresh)
            have unknown : ∀ known ∈ met, (known == candidate) = false := by
              simpa using List.find?_eq_none.mp found
            refine ⟨new ++ [candidate], refused, by simp [result], ?_, ?_, ?_, ?_, ?_⟩
            · intro element present
              rcases List.mem_append.mp present with present | present
              · obtain ⟨later, free⟩ := meeting.given element present
                exact ⟨List.mem_cons_of_mem _ later, free⟩
              · obtain rfl := List.mem_singleton.mp present
                exact ⟨List.mem_cons_self .., found ▸ admitted⟩
            · intro distinct
              simpa using meeting.distinct (List.pairwise_cons.mpr ⟨unknown, distinct⟩)
            · intro clear other present
              rcases List.mem_cons.mp present with rfl | present
              · exact ⟨other, by simp, BEq.rfl, .inl rfl⟩
              · simpa using meeting.settled clear other present
            · intro other stop
              obtain ⟨present, refusal⟩ := meeting.stopped other stop
              exact ⟨List.mem_cons_of_mem _ present, by simpa using refusal⟩
            · intro _ _
              simp
        | some known =>
            obtain ⟨new, refused, result, meeting⟩ := ih met fresh
            refine ⟨new, refused, result, ?_, meeting.distinct, ?_, ?_, ?_⟩
            · intro element present
              obtain ⟨later, free⟩ := meeting.given element present
              exact ⟨List.mem_cons_of_mem _ later, free⟩
            · intro clear other present
              rcases List.mem_cons.mp present with rfl | present
              · have equal : (known == other) = true := by simpa using List.find?_some found
                have here := List.mem_append_right new (List.mem_of_find?_eq_some found)
                exact ⟨known, here, equal, .inr (found ▸ admitted)⟩
              · exact meeting.settled clear other present
            · intro other stop
              obtain ⟨present, refusal⟩ := meeting.stopped other stop
              exact ⟨List.mem_cons_of_mem _ present, refusal⟩
            · rintro rfl _
              simp at found
      · rw [if_neg admitted]
        refine ⟨[], some candidate, rfl, by simp, id, by simp, ?_, by simp⟩
        intro other stop
        obtain rfl := Option.some.inj stop
        exact ⟨List.mem_cons_self .., by simpa using admitted⟩

/-- What holds of a search that has not been stopped, between two expansions. -/
structure Progress (search : Search α) (seeds met pending : List α) : Prop where
  reached : ∀ element ∈ met, search.Reaches seeds (· ∈ met) element
  admitted : ∀ element ∈ met, search.admits none element = true
  distinct : Distinct met
  waiting : ∀ element ∈ pending, element ∈ met
  seeded : ∀ seed ∈ seeds, search.Settled met seed
  expanded : ∀ element ∈ met, element ∈ pending ∨
    ∀ next ∈ search.successors element, search.Settled met next
  first : met.getLast? = seeds.head?

/-- What holds of a search that has ended. -/
structure Explored (search : Search α) (seeds : List α) (exploration : Exploration α) : Prop where
  reached : ∀ element ∈ exploration.met, search.Reaches seeds (· ∈ exploration.met) element
  admitted : ∀ element ∈ exploration.met, search.admits none element = true
  distinct : Distinct exploration.met
  seeded : exploration.refused = none → ∀ seed ∈ seeds, search.Settled exploration.met seed
  closed : exploration.refused = none → ∀ element ∈ exploration.met,
    ∀ next ∈ search.successors element, search.Settled exploration.met next
  stopped : ∀ candidate, exploration.refused = some candidate → search.Possible seeds candidate ∧
    (search.halts candidate = true ∨
      search.admits (exploration.met.find? (· == candidate)) candidate = false)
  first : exploration.refused = none → exploration.met.getLast? = seeds.head?

/-- No list of distinct elements that can be reached is longer than `limit`. -/
def Bounded (search : Search α) (seeds : List α) (limit : Nat) : Prop :=
  ∀ items, (∀ element ∈ items, search.Possible seeds element) → Distinct items → items.length ≤ limit

theorem bounded_of_mem [EquivBEq α] {search : Search α} {seeds : List α} (space : List α) {limit : Nat}
    (known : ∀ element, search.Possible seeds element → element ∈ space) (few : space.length ≤ limit) :
    search.Bounded seeds limit := by
  intro items reached distinct
  have single : items.Nodup := distinct.imp fun different same => by simp [same] at different
  exact Nat.le_trans (single.length_le_of_subset fun item present => known item (reached item present)) few

/-- How the expansion of pending elements goes on, left to itself, until nothing is pending or something
stops it. -/
inductive Course (search : Search α) : List α → List α → Exploration α → Prop where
  | done (met : List α) : Course search met [] ⟨met, none⟩
  | halted (met pending : List α) {element : α} : search.halts element = true →
      Course search met (element :: pending) ⟨met, some element⟩
  | stopped {met after fresh : List α} (pending : List α) {element candidate : α} :
      search.halts element = false →
      search.meet met [] (search.successors element) = (⟨after, some candidate⟩, fresh) →
      Course search met (element :: pending) ⟨after, some candidate⟩
  | expanded {met after fresh pending : List α} {element : α} {exploration : Exploration α} :
      search.halts element = false →
      search.meet met [] (search.successors element) = (⟨after, none⟩, fresh) →
      Course search after (search.discipline.join fresh pending) exploration →
      Course search met (element :: pending) exploration

/-- How a search from `seeds` goes on, left to itself, until it comes to its end. -/
def Ends (search : Search α) (seeds : List α) (exploration : Exploration α) : Prop :=
  match search.meet [] [] seeds with
  | (⟨met, none⟩, fresh) => search.Course met (search.discipline.join fresh []) exploration
  | (stopped, _) => exploration = stopped

section Loop

variable {search : Search α} {seeds met pending : List α}

theorem Meeting.reached {element : α} {new : List α} {refused : Option α}
    (meeting : search.Meeting met (search.successors element) new refused)
    (before : ∀ other ∈ met, search.Reaches seeds (· ∈ met) other) (here : element ∈ met) :
    ∀ other ∈ new ++ met, search.Reaches seeds (· ∈ new ++ met) other := by
  have wider (other : α) (reached : search.Reaches seeds (· ∈ met) other) :
      search.Reaches seeds (· ∈ new ++ met) other :=
    reached.mono fun _ => List.mem_append_right new
  intro other present
  rcases List.mem_append.mp present with fresh | old
  · exact .step (wider element (before element here)) (meeting.given other fresh).1 present
  · exact wider other (before other old)

theorem Progress.explored (progress : search.Progress seeds met []) :
    search.Explored seeds ⟨met, none⟩ where
  reached := progress.reached
  admitted := progress.admitted
  distinct := progress.distinct
  seeded _ := progress.seeded
  closed _ element present := (progress.expanded element present).resolve_left (by simp)
  stopped _ stop := by simp at stop
  first _ := progress.first

theorem Progress.step [EquivBEq α] {element : α} {new : List α}
    (progress : search.Progress seeds met (element :: pending))
    (meeting : search.Meeting met (search.successors element) new none) :
    search.Progress seeds (new ++ met) (search.discipline.join new pending) := by
  have here := progress.waiting element (List.mem_cons_self ..)
  have larger : ∀ other ∈ met, other ∈ new ++ met := fun _ => List.mem_append_right new
  refine ⟨meeting.reached progress.reached here, ?_, meeting.distinct progress.distinct, ?_, ?_, ?_, ?_⟩
  · intro other present
    rcases List.mem_append.mp present with present | present
    · exact (meeting.given other present).2
    · exact progress.admitted other present
  · intro other present
    rcases (Discipline.mem_join ..).mp present with present | present
    · exact List.mem_append_left met present
    · exact larger other (progress.waiting other (List.mem_cons_of_mem _ present))
  · intro seed present
    exact (progress.seeded seed present).mono larger
  · intro other present
    rcases List.mem_append.mp present with present | present
    · exact .inl ((Discipline.mem_join ..).mpr (.inl present))
    · rcases progress.expanded other present with due | closed
      · rcases List.mem_cons.mp due with rfl | due
        · exact .inr (meeting.settled rfl)
        · exact .inl ((Discipline.mem_join ..).mpr (.inr due))
      · exact .inr fun next follows => (closed next follows).mono larger
  · have final := List.getLast?_eq_some_getLast (List.ne_nil_of_mem here)
    rw [← progress.first, List.getLast?_append, final, Option.some_or]

theorem Progress.explored_of_stop [EquivBEq α] {element : α} {new : List α} {candidate : α}
    (progress : search.Progress seeds met (element :: pending))
    (meeting : search.Meeting met (search.successors element) new (some candidate)) :
    search.Explored seeds ⟨new ++ met, some candidate⟩ := by
  -- a search that is stopped while it expands `element` has met nothing that it could not come to
  have here := progress.waiting element (List.mem_cons_self ..)
  refine ⟨meeting.reached progress.reached here, ?_, meeting.distinct progress.distinct, by simp, by simp,
    ?_, by simp⟩
  · intro other present
    rcases List.mem_append.mp present with present | present
    · exact (meeting.given other present).2
    · exact progress.admitted other present
  · intro other stop
    obtain ⟨follows, refusal⟩ := meeting.stopped other stop
    have source : search.Possible seeds element := (progress.reached element here).mono fun _ _ => trivial
    exact ⟨.step source follows trivial, .inr refusal⟩

theorem Progress.eq_nil {limit : Nat} (progress : search.Progress seeds met pending)
    (bounded : search.Bounded seeds limit) (enough : limit + pending.length ≤ met.length) : pending = [] := by
  -- nothing is pending once as much has been met as can be
  have short := bounded met (fun element present =>
    (progress.reached element present).mono fun _ _ => trivial) progress.distinct
  exact List.length_eq_zero_iff.mp (by omega)

theorem course_expand [EquivBEq α] {limit fuel : Nat} (bounded : search.Bounded seeds limit)
    (progress : search.Progress seeds met pending)
    (enough : limit + pending.length ≤ fuel + met.length) :
    search.Course met pending (search.expand fuel met pending) := by
  -- each expansion takes one element from those pending, and all that is new is both met and pending
  induction fuel generalizing met pending with
  | zero =>
      obtain rfl := progress.eq_nil bounded (by omega)
      exact .done met
  | succ fuel ih =>
      cases pending with
      | nil => exact .done met
      | cons element rest =>
          simp only [expand]
          by_cases halted : search.halts element = true
          · rw [if_pos halted]
            exact .halted met rest halted
          · rw [if_neg halted]
            have onward : search.halts element = false := by simpa using halted
            obtain ⟨new, refused, result, meeting⟩ := search.meet_eq met [] (search.successors element)
            rw [List.append_nil] at result
            rw [result]
            cases refused with
            | none =>
                refine .expanded onward result (ih (progress.step meeting) ?_)
                simp only [Discipline.length_join, List.length_append, List.length_cons] at enough ⊢
                omega
            | some candidate => exact .stopped rest onward result

theorem Progress.explored_of_course [EquivBEq α] {exploration : Exploration α}
    (progress : search.Progress seeds met pending) (course : search.Course met pending exploration) :
    search.Explored seeds exploration := by
  induction course with
  | done => exact progress.explored
  | @halted met pending element halted =>
      have known := progress.waiting element (List.mem_cons_self ..)
      have here : search.Possible seeds element := (progress.reached element known).mono fun _ _ => trivial
      refine ⟨progress.reached, progress.admitted, progress.distinct, by simp, by simp, ?_, by simp⟩
      intro candidate stop
      obtain rfl := Option.some.inj stop
      exact ⟨here, .inl halted⟩
  | stopped _ _ result =>
      obtain ⟨new, refused, same, meeting⟩ := search.meet_eq _ _ _
      obtain ⟨exploration, -⟩ := Prod.mk.inj (same.symm.trans result)
      obtain ⟨rfl, rfl⟩ := Exploration.mk.inj exploration
      exact progress.explored_of_stop meeting
  | expanded _ result _ ih =>
      obtain ⟨new, refused, same, meeting⟩ := search.meet_eq _ _ _
      obtain ⟨exploration, rfl⟩ := Prod.mk.inj (same.symm.trans result)
      obtain ⟨rfl, rfl⟩ := Exploration.mk.inj exploration
      rw [List.append_nil] at ih
      exact ih (progress.step meeting)

theorem Meeting.progress {new : List α} (meeting : search.Meeting [] seeds new none) :
    search.Progress seeds new (search.discipline.join new []) where
  reached element present := .seed (meeting.given element present).1 present
  admitted element present := (meeting.given element present).2
  distinct := by simpa using meeting.distinct List.Pairwise.nil
  waiting := by simp [Discipline.mem_join]
  seeded := by simpa using meeting.settled rfl
  expanded element present := .inl ((Discipline.mem_join ..).mpr (.inl present))
  first := meeting.first rfl rfl

theorem ends_run [EquivBEq α] {fuel : Nat} (bounded : search.Bounded seeds fuel) :
    search.Ends seeds (search.run fuel seeds) := by
  obtain ⟨new, refused, result, meeting⟩ := search.meet_eq [] [] seeds
  simp only [List.append_nil] at result
  simp only [Ends, run, result]
  cases refused with
  | none =>
      refine course_expand bounded meeting.progress ?_
      simp [Discipline.length_join]
  | some candidate => rfl

theorem Ends.explored [EquivBEq α] {exploration : Exploration α} (ends : search.Ends seeds exploration) :
    search.Explored seeds exploration := by
  obtain ⟨new, refused, result, meeting⟩ := search.meet_eq [] [] seeds
  simp only [List.append_nil] at result
  simp only [Ends, result] at ends
  cases refused with
  | none => exact meeting.progress.explored_of_course ends
  | some candidate =>
      subst ends
      refine ⟨?_, ?_, by simpa using meeting.distinct List.Pairwise.nil, by simp, by simp, ?_, by simp⟩
      · exact fun element present => .seed (meeting.given element present).1 present
      · exact fun element present => (meeting.given element present).2
      · intro other stop
        obtain ⟨present, refusal⟩ := meeting.stopped other stop
        exact ⟨.seed present trivial, .inr (by simpa using refusal)⟩

theorem explored_run [EquivBEq α] {fuel : Nat} (bounded : search.Bounded seeds fuel) :
    search.Explored seeds (search.run fuel seeds) :=
  (ends_run bounded).explored

end Loop

end Search

end FiniteAutomata
