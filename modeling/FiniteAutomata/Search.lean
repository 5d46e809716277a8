set_option autoImplicit false

/-!
Search through a space that is given by the successors of its elements. Each element is expanded once, and
one that equals an element met before is not met again. The search ends at the first element that it does not
admit, or that halts it when it is to be expanded.
-/

namespace FiniteAutomata

variable {α : Type}

/-- Which of the pending elements is expanded next: the newest, or the oldest. -/
inductive Discipline where
  | newest | oldest

/-- Both lists have the element that is to be expanded next first, if `fresh` is newest first. -/
def Discipline.join (discipline : Discipline) (fresh pending : List α) : List α :=
  match discipline with
  | .newest => fresh ++ pending
  | .oldest => pending ++ fresh.reverse

theorem Discipline.forall_mem_join {P : α → Prop} (discipline : Discipline) {fresh pending : List α}
    (new : ∀ element ∈ fresh, P element) (old : ∀ element ∈ pending, P element) :
    ∀ element ∈ discipline.join fresh pending, P element := by
  cases discipline with
  | newest => exact List.forall_mem_append.mpr ⟨new, old⟩
  | oldest =>
      exact List.forall_mem_append.mpr ⟨old, fun element here => new element (List.mem_reverse.mp here)⟩

/-- An element is admitted in view of the equal one met before, if there is one. -/
structure Search (α : Type) where
  discipline : Discipline
  successors : α → List α
  admits : Option α → α → Bool
  halts : α → Bool := fun _ => false

/-- What has been met, newest first, and the element that ended the search, if any did. -/
structure Exploration (α : Type) where
  met : List α
  refused : Option α

def Exploration.found (exploration : Exploration α) : List α :=
  exploration.met.reverse

namespace Search

variable [BEq α]

@[specialize] def meet (search : Search α) : List α → List α → List α → Exploration α × List α
  -- meets `candidates` in turn, and collects those that are new in front of `fresh`
  | met, fresh, [] => (⟨met, none⟩, fresh)
  | met, fresh, candidate :: rest =>
      let known := met.find? fun known => known == candidate
      if search.admits known candidate then
        match known with
        | none => search.meet (candidate :: met) (candidate :: fresh) rest
        | some _ => search.meet met fresh rest
      else (⟨met, some candidate⟩, fresh)

@[specialize] def expand (search : Search α) : Nat → List α → List α → Exploration α
  -- expands pending elements, at most `fuel` of them
  | 0, met, _ => ⟨met, none⟩
  | _ + 1, met, [] => ⟨met, none⟩
  | fuel + 1, met, element :: pending =>
      if search.halts element then ⟨met, some element⟩
      else
        match search.meet met [] (search.successors element) with
        | (⟨met, none⟩, fresh) => search.expand fuel met (search.discipline.join fresh pending)
        | (stopped, _) => stopped

/-- Searches from `seeds`. The fuel must be no less than the number of elements that can be met. -/
@[specialize] def run (search : Search α) (fuel : Nat) (seeds : List α) : Exploration α :=
  match search.meet [] [] seeds with
  | (⟨met, none⟩, fresh) => search.expand fuel met (search.discipline.join fresh [])
  | (stopped, _) => stopped

theorem meet_of_admitted {search : Search α} {P : α → Prop}
    (admitted : ∀ known element, P element → search.admits known element = true)
    (met fresh candidates : List α) (fits : ∀ element ∈ fresh, P element)
    (given : ∀ element ∈ candidates, P element) :
    (search.meet met fresh candidates).1.refused = none ∧
      ∀ element ∈ (search.meet met fresh candidates).2, P element := by
  -- candidates that are all admitted do not end the search, and what is new among them is fresh
  induction candidates generalizing met fresh with
  | nil => exact ⟨rfl, fits⟩
  | cons candidate rest ih =>
      have first := given candidate (List.mem_cons_self ..)
      have later := fun element here => given element (List.mem_cons_of_mem _ here)
      simp only [meet, admitted _ _ first, if_true]
      split
      · exact ih _ _ (List.forall_mem_cons.mpr ⟨first, fits⟩) later
      · exact ih _ _ fits later

/-- A property that is handed on to successors holds of all that is expanded. If what has it is admitted and
halts nothing, the search comes to its end. -/
theorem refused_run {search : Search α} {P : α → Prop}
    (admitted : ∀ known element, P element → search.admits known element = true)
    (passed : ∀ element, P element → search.halts element = false)
    (kept : ∀ element, P element → ∀ next ∈ search.successors element, P next)
    (fuel : Nat) (seeds : List α) (given : ∀ element ∈ seeds, P element) :
    (search.run fuel seeds).refused = none := by
  have expanded (fuel : Nat) (met pending : List α) (due : ∀ element ∈ pending, P element) :
      (search.expand fuel met pending).refused = none := by
    induction fuel generalizing met pending with
    | zero => rfl
    | succ fuel ih =>
        cases pending with
        | nil => rfl
        | cons element rest =>
            have first := due element (List.mem_cons_self ..)
            have later := fun other here => due other (List.mem_cons_of_mem _ here)
            obtain ⟨clear, new⟩ := meet_of_admitted admitted met [] (search.successors element)
              (by simp) (kept element first)
            simp only [expand, passed element first, Bool.false_eq_true, if_false]
            split
            · rename_i found
              exact ih _ _ (search.discipline.forall_mem_join (by simpa [found] using new) later)
            · rename_i found
              simpa [found] using clear
  obtain ⟨clear, new⟩ := meet_of_admitted admitted [] [] seeds (by simp) given
  simp only [run]
  split
  · rename_i found
    exact expanded _ _ _ (search.discipline.forall_mem_join (by simpa [found] using new) (by simp))
  · rename_i found
    simpa [found] using clear

end Search

end FiniteAutomata
