import FiniteAutomata.Proofs.Exploration
import Mathlib.Data.List.Forall2

set_option autoImplicit false

/-!
Two searches that nothing stops and whose successors correspond one by one find corresponding elements in the
same order, whatever the elements themselves are.
-/

namespace FiniteAutomata

namespace Search

variable {α β : Type} [BEq α] [BEq β]

/-- Related elements have related successors in the same order, and as many of them are equal. -/
structure Lockstep (left : Search α) (right : Search β) (related : α → β → Prop) : Prop where
  discipline : left.discipline = right.discipline
  leftAdmits : ∀ known element, left.admits known element = true
  rightAdmits : ∀ known element, right.admits known element = true
  leftPasses : ∀ element, left.halts element = false
  rightPasses : ∀ element, right.halts element = false
  faithful : ∀ {element : α} {twin : β} {other : α} {otherTwin : β}, related element twin →
    related other otherTwin → (element == other) = (twin == otherTwin)
  successors : ∀ {element : α} {twin : β}, related element twin →
    List.Forall₂ related (left.successors element) (right.successors twin)

namespace Lockstep

variable {left : Search α} {right : Search β} {related : α → β → Prop}
  (lockstep : left.Lockstep right related)
include lockstep

theorem find? {met : List α} {twins : List β} (known : List.Forall₂ related met twins) {element : α} {twin : β}
    (same : related element twin) :
    (met.find? (· == element)).isNone = (twins.find? (· == twin)).isNone := by
  induction known with
  | nil => rfl
  | cons first _ ih =>
      simp only [List.find?_cons, lockstep.faithful first same]
      split
      · rfl
      · exact ih

theorem meet {met fresh candidates : List α} {twins others twinCandidates : List β}
    (known : List.Forall₂ related met twins) (new : List.Forall₂ related fresh others)
    (given : List.Forall₂ related candidates twinCandidates) :
    ∃ after found afterTwins foundTwins,
      left.meet met fresh candidates = (⟨after, none⟩, found) ∧
      right.meet twins others twinCandidates = (⟨afterTwins, none⟩, foundTwins) ∧
      List.Forall₂ related after afterTwins ∧ List.Forall₂ related found foundTwins := by
  induction given generalizing met fresh twins others with
  | nil => exact ⟨met, fresh, twins, others, rfl, rfl, known, new⟩
  | @cons candidate twin _ _ same _ ih =>
      have agree := lockstep.find? known same
      simp only [Search.meet, lockstep.leftAdmits, lockstep.rightAdmits, if_true]
      cases found : met.find? (· == candidate) with
      | none =>
          have absent : twins.find? (· == twin) = none := by simpa [found] using agree
          simp only [absent]
          exact ih (.cons same known) (.cons same new)
      | some old =>
          obtain ⟨oldTwin, present⟩ : ∃ oldTwin, twins.find? (· == twin) = some oldTwin := by
            simpa [found, Option.isSome_iff_exists] using agree
          simp only [present]
          exact ih known new

theorem join {fresh pending : List α} {found waiting : List β} (new : List.Forall₂ related fresh found)
    (old : List.Forall₂ related pending waiting) :
    List.Forall₂ related (left.discipline.join fresh pending) (right.discipline.join found waiting) := by
  rw [lockstep.discipline]
  cases right.discipline with
  | newest => exact List.rel_append new old
  | oldest => exact List.rel_append old (List.rel_reverse new)

theorem course {met pending : List α} {twins waiting : List β} {exploration : Exploration α}
    {other : Exploration β} (leftCourse : left.Course met pending exploration)
    (rightCourse : right.Course twins waiting other) (known : List.Forall₂ related met twins)
    (due : List.Forall₂ related pending waiting) : List.Forall₂ related exploration.met other.met := by
  -- by induction on one course: the other expands the twin each time, and ends when the first does
  induction leftCourse generalizing twins waiting with
  | done =>
      cases due
      cases rightCourse
      exact known
  | halted _ _ halts => simp [lockstep.leftPasses] at halts
  | stopped _ _ result =>
      cases due with
      | cons same _ =>
          obtain ⟨_, _, _, _, ends, -⟩ := lockstep.meet known .nil (lockstep.successors same)
          simp [result] at ends
  | expanded _ result _ ih =>
      cases due with
      | cons same later =>
          obtain ⟨after, found, afterTwins, foundTwins, ends, twinEnds, met, new⟩ :=
            lockstep.meet known .nil (lockstep.successors same)
          obtain ⟨exploration, rfl⟩ := Prod.mk.inj (result.symm.trans ends)
          obtain ⟨rfl, -⟩ := Exploration.mk.inj exploration
          cases rightCourse with
          | halted _ _ halts => simp [lockstep.rightPasses] at halts
          | stopped _ _ twinResult => simp [twinEnds] at twinResult
          | expanded _ twinResult onward =>
              obtain ⟨exploration, rfl⟩ := Prod.mk.inj (twinResult.symm.trans twinEnds)
              obtain ⟨rfl, -⟩ := Exploration.mk.inj exploration
              exact ih onward met (lockstep.join new later)

theorem found {seeds : List α} {twinSeeds : List β} {exploration : Exploration α} {other : Exploration β}
    (leftEnds : left.Ends seeds exploration) (rightEnds : right.Ends twinSeeds other)
    (given : List.Forall₂ related seeds twinSeeds) :
    List.Forall₂ related exploration.found other.found := by
  obtain ⟨after, found, afterTwins, foundTwins, ends, twinEnds, met, new⟩ := lockstep.meet .nil .nil given
  simp only [Ends, ends] at leftEnds
  simp only [Ends, twinEnds] at rightEnds
  exact List.rel_reverse (lockstep.course leftEnds rightEnds met (lockstep.join new .nil))

end Lockstep

end Search

end FiniteAutomata
