import FiniteAutomata.Label.Basic

set_option autoImplicit false

/-!
Paths that read a word along labelled links. Links under the marker of silent steps read nothing.
-/

namespace FiniteAutomata

/-- No symbol of the word is the marker of silent steps. -/
def Unmarked (epsilon : Label) (word : List Label) : Prop :=
  ∀ symbol ∈ word, (symbol == epsilon) = false

theorem unmarked_cons {epsilon symbol : Label} {word : List Label} :
    Unmarked epsilon (symbol :: word) ↔ (symbol == epsilon) = false ∧ Unmarked epsilon word :=
  List.forall_mem_cons

theorem unmarked_append {epsilon : Label} {first second : List Label} :
    Unmarked epsilon (first ++ second) ↔ Unmarked epsilon first ∧ Unmarked epsilon second :=
  List.forall_mem_append

theorem unmarked_or_split (epsilon : Label) (word : List Label) :
    Unmarked epsilon word ∨ ∃ before symbol after, word = before ++ symbol :: after ∧
      Unmarked epsilon before ∧ (symbol == epsilon) = true := by
  -- a word with markers in it is split at the first of them
  induction word with
  | nil => exact .inl (by simp [Unmarked])
  | cons head tail ih =>
      by_cases marked : (head == epsilon) = true
      · exact .inr ⟨[], head, tail, rfl, by simp [Unmarked], marked⟩
      · have real : (head == epsilon) = false := by simpa using marked
        rcases ih with none | ⟨before, symbol, after, rfl, clear, here⟩
        · exact .inl (unmarked_cons.mpr ⟨real, none⟩)
        · exact .inr ⟨head :: before, symbol, after, rfl, unmarked_cons.mpr ⟨real, clear⟩, here⟩

theorem Unmarked.of_prefix {epsilon : Label} {word before : List Label} (unmarked : Unmarked epsilon word)
    (begins : before <+: word) : Unmarked epsilon before :=
  fun symbol present => unmarked symbol (begins.subset present)

inductive Path {σ : Type} (link : σ → Label → σ → Prop) (epsilon : Label) : σ → List Label → σ → Prop where
  | stay (point : σ) : Path link epsilon point [] point
  | silent {point middle last : σ} {label : Label} {word : List Label} : link point label middle →
      (label == epsilon) = true → Path link epsilon middle word last → Path link epsilon point word last
  | symbol {point middle last : σ} {label symbol : Label} {word : List Label} : link point label middle →
      (label == epsilon) = false → (label == symbol) = true → Path link epsilon middle word last →
      Path link epsilon point (symbol :: word) last

namespace Path

variable {σ : Type} {link : σ → Label → σ → Prop} {epsilon : Label}

theorem append {first middle last : σ} {left right : List Label}
    (before : Path link epsilon first left middle) (after : Path link epsilon middle right last) :
    Path link epsilon first (left ++ right) last := by
  induction before with
  | stay => exact after
  | silent leads marked _ ih => exact .silent leads marked (ih after)
  | symbol leads real reads _ ih => exact .symbol leads real reads (ih after)

theorem keeps {P : σ → Prop} (step : ∀ source label target, link source label target → P source → P target)
    {first last : σ} {word : List Label} (path : Path link epsilon first word last) (holds : P first) :
    P last := by
  induction path with
  | stay => exact holds
  | silent leads _ _ ih | symbol leads _ _ _ ih => exact ih (step _ _ _ leads holds)

theorem congr {other : σ → Label → σ → Prop} {marker : Label} (same : (epsilon == marker) = true)
    (links : ∀ source label target, link source label target →
      ∃ spelled, (spelled == label) = true ∧ other source spelled target)
    {first last : σ} {word : List Label} (path : Path link epsilon first word last) :
    Path other marker first word last := by
  induction path with
  | stay => exact .stay _
  | silent leads marked _ ih =>
      obtain ⟨spelled, equal, leadsOther⟩ := links _ _ _ leads
      exact .silent leadsOther (BEq.trans (BEq.trans equal marked) same) ih
  | symbol leads real reads _ ih =>
      obtain ⟨spelled, equal, leadsOther⟩ := links _ _ _ leads
      refine .symbol leadsOther ?_ (BEq.trans equal reads) ih
      rw [BEq.congr_left equal, ← BEq.congr_right same]
      exact real

theorem cons_iff {first last : σ} {symbol : Label} {word : List Label} :
    Path link epsilon first (symbol :: word) last ↔ ∃ origin goal label,
      Path link epsilon first [] origin ∧ link origin label goal ∧ (label == epsilon) = false ∧
        (label == symbol) = true ∧ Path link epsilon goal word last := by
  -- a path that reads something takes silent steps to a link that reads the first symbol of it
  constructor
  · intro path
    generalize whole : symbol :: word = read at path
    induction path with
    | stay => simp at whole
    | silent leads marked _ ih =>
        obtain ⟨origin, goal, label, before, rest⟩ := ih whole
        exact ⟨origin, goal, label, .silent leads marked before, rest⟩
    | @symbol point middle last label _ _ leads real reads after _ =>
        obtain ⟨rfl, rfl⟩ := List.cons.inj whole
        exact ⟨point, middle, label, .stay point, leads, real, reads, after⟩
  · rintro ⟨origin, goal, label, before, leads, real, reads, after⟩
    exact before.append (.symbol leads real reads after)

theorem append_iff {first last : σ} {left right : List Label} :
    Path link epsilon first (left ++ right) last ↔
      ∃ middle, Path link epsilon first left middle ∧ Path link epsilon middle right last := by
  constructor
  · intro path
    induction left generalizing first with
    | nil => exact ⟨first, .stay first, path⟩
    | cons symbol rest ih =>
        obtain ⟨origin, goal, label, before, leads, real, reads, after⟩ := cons_iff.mp path
        obtain ⟨middle, here, onward⟩ := ih after
        exact ⟨middle, before.append (.symbol leads real reads here), onward⟩
  · rintro ⟨middle, before, after⟩
    exact before.append after

section Loud

variable (loud : ∀ source label target, link source label target → (label == epsilon) = false)
include loud

theorem nil_iff {first last : σ} : Path link epsilon first [] last ↔ first = last := by
  constructor
  · intro path
    cases path with
    | stay => rfl
    | silent leads marked => simp [loud _ _ _ leads] at marked
  · rintro rfl
    exact .stay first

/-- Without silent links, the last symbol is read by the last link. -/
theorem concat_iff {first last : σ} {word : List Label} {symbol : Label} :
    Path link epsilon first (word ++ [symbol]) last ↔ ∃ origin label,
      Path link epsilon first word origin ∧ link origin label last ∧ (label == symbol) = true := by
  rw [append_iff]
  constructor
  · rintro ⟨middle, before, step⟩
    obtain ⟨origin, goal, label, still, leads, -, reads, done⟩ := cons_iff.mp step
    obtain rfl := (nil_iff loud).mp still
    obtain rfl := (nil_iff loud).mp done
    exact ⟨middle, label, before, leads, reads⟩
  · rintro ⟨origin, label, before, leads, reads⟩
    exact ⟨origin, before, .symbol leads (loud _ _ _ leads) reads (.stay last)⟩

end Loud

end Path

end FiniteAutomata
