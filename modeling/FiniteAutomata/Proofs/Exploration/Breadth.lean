import FiniteAutomata.Proofs.Exploration

set_option autoImplicit false

/-!
The order in which a search that expands the oldest elements first meets what it finds: an element that fewer
steps lead to comes before one that needs more.
-/

namespace FiniteAutomata

namespace Search

variable {α : Type} [BEq α]

/-- What at most so many steps along the successors lead to from `seeds`, up to equality. -/
inductive Within (search : Search α) (seeds : List α) : Nat → α → Prop where
  | seed {steps : Nat} {seed element : α} : seed ∈ seeds → (seed == element) = true →
      Within search seeds steps element
  | step {steps : Nat} {source next element : α} : Within search seeds steps source →
      next ∈ search.successors source → (next == element) = true → Within search seeds (steps + 1) element

/-- No fewer steps lead to `later` than to `earlier`. -/
def Nearer (search : Search α) (seeds : List α) (earlier later : α) : Prop :=
  ∀ steps, search.Within seeds steps later → search.Within seeds steps earlier

variable {search : Search α} {seeds : List α}

theorem Within.succ {steps : Nat} {element : α} (within : search.Within seeds steps element) :
    search.Within seeds (steps + 1) element := by
  induction within with
  | seed given same => exact .seed given same
  | step _ follows same ih => exact .step ih follows same

theorem Reaches.exists_within [EquivBEq α] {inside : α → Prop} {element : α}
    (reached : search.Reaches seeds inside element) : ∃ steps, search.Within seeds steps element := by
  induction reached with
  | seed given _ => exact ⟨0, .seed given BEq.rfl⟩
  | step _ follows _ ih =>
      obtain ⟨steps, within⟩ := ih
      exact ⟨steps + 1, .step within follows BEq.rfl⟩

/-- Between two expansions: the elements met so far, the oldest first, are those that were expanded and then
those that are pending, and the last of them is at most one step farther away than the first that is pending. -/
structure Queue (search : Search α) (seeds expanded pending : List α) : Prop where
  closed : ∀ element ∈ expanded, ∀ next ∈ search.successors element,
    ∃ known ∈ expanded ++ pending, (known == next) = true
  seeded : ∀ seed ∈ seeds, ∃ known ∈ expanded ++ pending, (known == seed) = true
  ordered : (expanded ++ pending).Pairwise (search.Nearer seeds)
  level : ∀ first ∈ pending.head?, ∀ element ∈ expanded ++ pending, ∀ steps,
    search.Within seeds steps first → search.Within seeds (steps + 1) element

theorem Queue.nearer_first {expanded pending : List α} {first : α}
    (queue : search.Queue seeds expanded (first :: pending)) :
    ∀ other ∈ pending, search.Nearer seeds first other :=
  (List.pairwise_cons.mp (List.pairwise_append.mp queue.ordered).2.1).1

section Step

variable [EquivBEq α] {expanded pending : List α}
  (congruent : ∀ left right, (left == right) = true → search.successors left = search.successors right)
include congruent

theorem Explored.exists_met {exploration : Exploration α} (explored : search.Explored seeds exploration)
    (clear : exploration.refused = none) {steps : Nat} {element : α}
    (within : search.Within seeds steps element) : ∃ known ∈ exploration.met, (known == element) = true := by
  induction within with
  | seed given same =>
      obtain ⟨known, present, equal, -⟩ := explored.seeded clear _ given
      exact ⟨known, present, BEq.trans equal same⟩
  | @step steps source next element _ follows same ih =>
      obtain ⟨origin, originMet, equal⟩ := ih
      rw [← congruent origin source equal] at follows
      obtain ⟨known, present, found, -⟩ := explored.closed clear origin originMet next follows
      exact ⟨known, present, BEq.trans found same⟩

omit [EquivBEq α] in
theorem Queue.exists_known (queue : search.Queue seeds expanded pending) {source next : α}
    (known : ∃ origin ∈ expanded, (origin == source) = true) (follows : next ∈ search.successors source) :
    ∃ other ∈ expanded ++ pending, (other == next) = true := by
  obtain ⟨origin, here, same⟩ := known
  rw [← congruent origin source same] at follows
  exact queue.closed origin here next follows

theorem Queue.exists_pending (queue : search.Queue seeds expanded pending) {steps : Nat} {element : α}
    (within : search.Within seeds steps element) (unknown : ∀ known ∈ expanded, (known == element) = false) :
    ∃ other ∈ pending, search.Within seeds steps other := by
  induction within with
  | seed given same =>
      obtain ⟨known, present, equal⟩ := queue.seeded _ given
      rcases List.mem_append.mp present with here | due
      · exact absurd (BEq.trans equal same) (by simp [unknown known here])
      · exact ⟨known, due, .seed given (BEq.symm equal)⟩
  | @step steps source next element within follows same ih =>
      by_cases sourceKnown : ∃ known ∈ expanded, (known == source) = true
      · -- the successor was met when the source was expanded
        obtain ⟨known, present, found⟩ := queue.exists_known congruent sourceKnown follows
        rcases List.mem_append.mp present with here | due
        · exact absurd (BEq.trans found same) (by simp [unknown known here])
        · exact ⟨known, due, .step within follows (BEq.symm found)⟩
      · obtain ⟨other, due, near⟩ := ih (by simpa using sourceKnown)
        exact ⟨other, due, near.succ⟩

theorem Queue.within_first {first element : α} (queue : search.Queue seeds expanded (first :: pending))
    (unknown : ∀ known ∈ expanded ++ first :: pending, (known == element) = false) {steps : Nat}
    (within : search.Within seeds steps element) :
    ∃ fewer, steps = fewer + 1 ∧ search.Within seeds fewer first := by
  -- an element not yet met is farther away than the first that is pending
  cases within with
  | seed given same =>
      obtain ⟨known, present, equal⟩ := queue.seeded _ given
      exact absurd (BEq.trans equal same) (by simp [unknown known present])
  | @step steps source next _ within follows same =>
      have sourceUnknown : ∀ known ∈ expanded, (known == source) = false := by
        intro origin originKnown
        apply Bool.eq_false_iff.mpr
        intro equal
        obtain ⟨known, present, found⟩ := queue.exists_known congruent ⟨origin, originKnown, equal⟩ follows
        exact absurd (BEq.trans found same) (by simp [unknown known present])
      obtain ⟨other, due, near⟩ := queue.exists_pending congruent within sourceUnknown
      refine ⟨steps, rfl, ?_⟩
      rcases List.mem_cons.mp due with rfl | later
      · exact near
      · exact queue.nearer_first other later steps near

theorem Queue.step {first : α} {new : List α} (queue : search.Queue seeds expanded (first :: pending))
    (given : ∀ element ∈ new, element ∈ search.successors first)
    (settled : ∀ next ∈ search.successors first,
      ∃ known ∈ new ++ (expanded ++ first :: pending), (known == next) = true)
    (unknown : ∀ element ∈ new, ∀ known ∈ expanded ++ first :: pending, (known == element) = false) :
    search.Queue seeds (expanded ++ [first]) (pending ++ new.reverse) := by
  have split : (expanded ++ [first]) ++ (pending ++ new.reverse) =
      (expanded ++ first :: pending) ++ new.reverse := by simp
  have fresh : ∀ element ∈ new, ∀ steps, search.Within seeds steps first →
      search.Within seeds (steps + 1) element := fun element here steps near =>
    .step near (given element here) BEq.rfl
  have farther : ∀ element ∈ new, ∀ other ∈ (expanded ++ first :: pending) ++ new.reverse,
      search.Nearer seeds other element := by
    intro element here other present steps within
    obtain ⟨fewer, rfl, near⟩ := queue.within_first congruent (unknown element here) within
    rcases List.mem_append.mp present with old | late
    · exact queue.level first rfl other old fewer near
    · exact fresh other (List.mem_reverse.mp late) fewer near
  refine ⟨?_, ?_, ?_, ?_⟩
  · rw [split]
    intro element present next follows
    rcases List.mem_append.mp present with old | here
    · obtain ⟨known, found, same⟩ := queue.closed element old next follows
      exact ⟨known, List.mem_append_left _ found, same⟩
    · obtain rfl := List.mem_singleton.mp here
      obtain ⟨known, found, same⟩ := settled next follows
      refine ⟨known, ?_, same⟩
      rw [List.mem_append, List.mem_reverse]
      exact (List.mem_append.mp found).symm
  · rw [split]
    intro seed present
    obtain ⟨known, found, same⟩ := queue.seeded seed present
    exact ⟨known, List.mem_append_left _ found, same⟩
  · rw [split]
    refine List.pairwise_append.mpr ⟨queue.ordered, ?_, ?_⟩
    · exact List.pairwise_of_forall_mem_list fun earlier early later late =>
        farther later (List.mem_reverse.mp late) earlier (List.mem_append_right _ early)
    · intro earlier old later late
      exact farther later (List.mem_reverse.mp late) earlier (List.mem_append_left _ old)
  · rw [split]
    intro head leads element present steps within
    -- the next element to expand is as far away as the one just expanded, or one step farther
    have onward : search.Within seeds steps first ∨
        ∃ fewer, steps = fewer + 1 ∧ search.Within seeds fewer first := by
      cases pending with
      | cons second rest =>
          obtain rfl : second = head := by simpa using leads
          exact .inl (queue.nearer_first second (List.mem_cons_self ..) steps within)
      | nil =>
          have here : head ∈ new := List.mem_reverse.mp (List.mem_of_head? (by simpa using leads))
          exact .inr (queue.within_first congruent (unknown head here) within)
    have reach : ∀ count, search.Within seeds count first → search.Within seeds (count + 1) element := by
      intro count near
      rcases List.mem_append.mp present with old | late
      · exact queue.level first rfl element old count near
      · exact fresh element (List.mem_reverse.mp late) count near
    rcases onward with near | ⟨fewer, rfl, near⟩
    · exact reach steps near
    · exact (reach fewer near).succ

theorem Queue.pairwise_of_course (oldest : search.discipline = .oldest) {met : List α}
    {exploration : Exploration α} (progress : search.Progress seeds met pending)
    (queue : search.Queue seeds expanded pending) (order : expanded ++ pending = met.reverse)
    (course : search.Course met pending exploration) (clear : exploration.refused = none) :
    exploration.found.Pairwise (search.Nearer seeds) := by
  induction course generalizing expanded with
  | done met =>
      have found : (⟨met, none⟩ : Exploration α).found = met.reverse := rfl
      rw [found, ← order]
      exact queue.ordered
  | halted | stopped => simp at clear
  | @expanded met after fresh pending first exploration _ result _ ih =>
      obtain ⟨new, refused, same, meeting⟩ := search.meet_eq met [] (search.successors first)
      rw [List.append_nil] at same
      obtain ⟨exploration, rfl⟩ := Prod.mk.inj (same.symm.trans result)
      obtain ⟨rfl, rfl⟩ := Exploration.mk.inj exploration
      have join : search.discipline.join new pending = pending ++ new.reverse := by
        rw [oldest]
        rfl
      have onward := progress.step meeting
      have apart := (List.pairwise_append.mp (meeting.distinct progress.distinct)).2.2
      have seen (element : α) : element ∈ expanded ++ first :: pending ↔ element ∈ met := by
        rw [order, List.mem_reverse]
      rw [join] at ih onward
      have given : ∀ element ∈ new, element ∈ search.successors first := fun element here =>
        (meeting.given element here).1
      refine ih onward (queue.step congruent given ?_ ?_) ?_ clear
      · intro next follows
        obtain ⟨known, found, same, -⟩ := meeting.settled rfl next follows
        refine ⟨known, ?_, same⟩
        rwa [List.mem_append, seen, ← List.mem_append]
      · intro element here known old
        exact apart element here known ((seen known).mp old)
      · rw [List.reverse_append, ← order]
        simp

theorem Ends.pairwise_nearer (oldest : search.discipline = .oldest) {exploration : Exploration α}
    (ends : search.Ends seeds exploration) (clear : exploration.refused = none) :
    exploration.found.Pairwise (search.Nearer seeds) := by
  obtain ⟨new, refused, result, meeting⟩ := search.meet_eq [] [] seeds
  simp only [List.append_nil] at result
  simp only [Ends, result] at ends
  cases refused with
  | some candidate =>
      subst ends
      simp at clear
  | none =>
      have join : search.discipline.join new [] = new.reverse := by
        rw [oldest]
        rfl
      have started : ∀ element ∈ new, ∀ steps, search.Within seeds steps element := fun element here _ =>
        .seed (meeting.given element here).1 BEq.rfl
      have queue : search.Queue seeds [] new.reverse := by
        refine ⟨by simp, ?_, ?_, ?_⟩
        · intro seed given
          obtain ⟨known, found, same, -⟩ := meeting.settled rfl seed given
          exact ⟨known, by simpa using found, same⟩
        · exact List.pairwise_of_forall_mem_list fun earlier early _ _ steps _ =>
            started earlier (List.mem_reverse.mp early) steps
        · exact fun _ _ element here steps _ => started element (List.mem_reverse.mp here) _
      have progress := meeting.progress
      rw [join] at progress
      have course : search.Course new (search.discipline.join new []) exploration := ends
      rw [join] at course
      exact queue.pairwise_of_course congruent oldest progress rfl course clear

end Step

end Search

end FiniteAutomata
