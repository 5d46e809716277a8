set_option autoImplicit false

/-!
Stable sorting by a key, and the one sorted list that stands for a set of names. Texts are ordered code point
by code point.
-/

namespace FiniteAutomata

variable {α κ : Type} [LT κ] [DecidableLT κ]

def insertSorted (key : α → κ) (item : α) : List α → List α
  -- puts `item` before the first entry whose key is not smaller than its own
  | [] => [item]
  | head :: tail =>
      if key head < key item then head :: insertSorted key item tail else item :: head :: tail

/-- Sorts by key; entries that share a key keep their order. -/
def sortOn (key : α → κ) (items : List α) : List α :=
  items.foldr (insertSorted key) []

theorem insertSorted_perm (key : α → κ) (item : α) (items : List α) :
    (insertSorted key item items).Perm (item :: items) := by
  induction items with
  | nil => exact List.Perm.refl _
  | cons head tail ih =>
      simp only [insertSorted]
      split
      · exact (ih.cons head).trans (List.Perm.swap item head tail)
      · exact List.Perm.refl _

theorem sortOn_perm (key : α → κ) (items : List α) : (sortOn key items).Perm items := by
  induction items with
  | nil => exact List.Perm.refl _
  | cons head tail ih =>
      exact (insertSorted_perm key head (sortOn key tail)).trans (ih.cons head)

@[simp] theorem mem_sortOn (key : α → κ) (items : List α) (item : α) :
    item ∈ sortOn key items ↔ item ∈ items :=
  (sortOn_perm key items).mem_iff

theorem sortOn_eq_self (key : α → κ) (items : List α)
    (level : ∀ left ∈ items, ∀ right ∈ items, ¬ key left < key right) : sortOn key items = items := by
  induction items with
  | nil => rfl
  | cons head tail ih =>
      have rest := ih fun left here right there =>
        level left (List.mem_cons_of_mem _ here) right (List.mem_cons_of_mem _ there)
      simp only [sortOn, List.foldr_cons] at rest ⊢
      rw [rest]
      cases tail with
      | nil => rfl
      | cons next later =>
          rw [insertSorted, if_neg (level next (by simp) head (by simp))]

theorem insertSorted_map {β : Type} (key : β → κ) (change : α → β) (item : α) (items : List α) :
    insertSorted key (change item) (items.map change) =
      (insertSorted (key ∘ change) item items).map change := by
  induction items with
  | nil => rfl
  | cons head tail ih =>
      simp only [List.map_cons, insertSorted, Function.comp_apply, ih]
      split <;> rfl

theorem sortOn_map {β : Type} (key : β → κ) (change : α → β) (items : List α) :
    sortOn key (items.map change) = (sortOn (key ∘ change) items).map change := by
  induction items with
  | nil => rfl
  | cons head tail ih =>
      simp only [sortOn, List.map_cons, List.foldr_cons] at ih ⊢
      rw [ih, insertSorted_map]

theorem insertSorted_pairwise (key : α → String) (item : α) (items : List α)
    (sorted : items.Pairwise fun a b => key a ≤ key b) :
    (insertSorted key item items).Pairwise fun a b => key a ≤ key b := by
  induction items with
  | nil => simp [insertSorted]
  | cons head tail ih =>
      have parts := List.pairwise_cons.mp sorted
      simp only [insertSorted]
      split
      · rename_i smaller
        refine List.pairwise_cons.mpr ⟨fun other member => ?_, ih parts.2⟩
        rcases List.mem_cons.mp ((insertSorted_perm key item tail).mem_iff.mp member) with rfl | member
        · exact String.not_lt.mp (String.lt_asymm smaller)
        · exact parts.1 other member
      · rename_i larger
        have first : key item ≤ key head := String.not_lt.mp larger
        refine List.pairwise_cons.mpr ⟨fun other member => ?_, sorted⟩
        rcases List.mem_cons.mp member with rfl | member
        · exact first
        · exact String.le_trans first (parts.1 other member)

theorem sortOn_pairwise (key : α → String) (items : List α) :
    (sortOn key items).Pairwise fun a b => key a ≤ key b := by
  induction items with
  | nil => exact List.Pairwise.nil
  | cons head tail ih => exact insertSorted_pairwise key head (sortOn key tail) ih

theorem sortOn_id_congr {left right : List String} (same : left.Perm right) :
    sortOn id left = sortOn id right :=
  ((sortOn_perm id left).trans (same.trans (sortOn_perm id right).symm)).eq_of_pairwise
    (fun _ _ _ _ => String.le_antisymm) (sortOn_pairwise id left) (sortOn_pairwise id right)

/-- The sorted list of the distinct names among `names`. -/
def canonical (names : List String) : List String :=
  sortOn id names.eraseDups

@[simp] theorem mem_canonical (names : List String) (name : String) :
    name ∈ canonical names ↔ name ∈ names := by
  simp [canonical]

theorem nodup_eraseDups {β : Type} [BEq β] [LawfulBEq β] : (items : List β) → items.eraseDups.Nodup
  | [] => by simp
  | head :: tail => by
      rw [List.eraseDups_cons, List.nodup_cons]
      exact ⟨by simp, nodup_eraseDups _⟩
  termination_by items => items.length
  decreasing_by exact Nat.lt_succ_of_le (List.length_filter_le ..)

theorem nodup_canonical (names : List String) : (canonical names).Nodup :=
  (sortOn_perm id _).nodup_iff.mpr (nodup_eraseDups _)

theorem canonical_eq_iff (left right : List String) :
    canonical left = canonical right ↔ ∀ name, name ∈ left ↔ name ∈ right := by
  constructor
  · intro equal name
    rw [← mem_canonical left, equal, mem_canonical]
  · intro same
    refine sortOn_id_congr ?_
    rw [List.perm_ext_iff_of_nodup (nodup_eraseDups left) (nodup_eraseDups right)]
    simpa using same

end FiniteAutomata
