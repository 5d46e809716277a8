import FiniteAutomata.Table
import Mathlib.Data.List.Pairwise

set_option autoImplicit false

/-!
Lists without equal items, and tables without equal keys. A table that is made by putting entries in one by one
has no equal keys, and each of its entries can be found under its key.
-/

namespace FiniteAutomata

section Apart

variable {α : Type} [BEq α]

/-- No item equals another. -/
def Apart (items : List α) : Prop :=
  items.Pairwise fun first second => (first == second) = false

theorem beq_eq_false_comm [EquivBEq α] {first second : α} (apart : (first == second) = false) :
    (second == first) = false := by
  apply Bool.eq_false_iff.mpr
  intro same
  simp [BEq.symm same] at apart

theorem Apart.of_perm [EquivBEq α] {items others : List α} (apart : Apart items) (same : items.Perm others) :
    Apart others :=
  same.pairwise apart fun different => beq_eq_false_comm different

theorem Apart.eq [EquivBEq α] {items : List α} (apart : Apart items) {first second : α} (here : first ∈ items)
    (there : second ∈ items) (same : (first == second) = true) : first = second := by
  have symmetric : Std.Symm fun first second : α => (first == second) = false :=
    ⟨fun _ _ => beq_eq_false_comm⟩
  by_contra differ
  have different := apart.forall here there differ
  simp [same] at different

theorem Apart.nodup [EquivBEq α] {items : List α} (apart : Apart items) : items.Nodup :=
  apart.imp fun different same => by simp [same] at different

theorem Apart.find?_eq_some [EquivBEq α] {items : List α} (apart : Apart items) {item : α} (present : item ∈ items) :
    items.find? (· == item) = some item := by
  cases found : items.find? (· == item) with
  | none => simpa using List.find?_eq_none.mp found item present
  | some first =>
      have same : (first == item) = true := by simpa using List.find?_some found
      rw [apart.eq (List.mem_of_find?_eq_some found) present same]

theorem apart_concat [EquivBEq α] {items : List α} (apart : Apart items) {item : α}
    (absent : items.contains item = false) : Apart (items ++ [item]) := by
  refine List.pairwise_append.mpr ⟨apart, List.pairwise_singleton .., fun known present other here => ?_⟩
  obtain rfl := List.mem_singleton.mp here
  apply Bool.eq_false_iff.mpr
  intro same
  have found := List.contains_iff_exists_mem_beq.mpr ⟨known, present, BEq.symm same⟩
  simp [found] at absent

theorem apart_addNew [EquivBEq α] {items : List α} (apart : Apart items) (item : α) :
    Apart (addNew items item) := by
  unfold addNew
  split
  · exact apart
  · rename_i absent
    exact apart_concat apart (by simpa using absent)

theorem apart_foldl_addNew [EquivBEq α] (items : List α) {known : List α} (apart : Apart known) :
    Apart (items.foldl addNew known) := by
  induction items generalizing known with
  | nil => exact apart
  | cons item rest ih => exact ih (apart_addNew apart item)

theorem contains_eq_false_of_apart [EquivBEq α] {before after : List α} {item : α}
    (apart : Apart (before ++ item :: after)) : before.contains item = false := by
  apply Bool.eq_false_iff.mpr
  intro present
  obtain ⟨known, here, same⟩ := List.contains_iff_exists_mem_beq.mp present
  have different := (List.pairwise_append.mp apart).2.2 known here item (List.mem_cons_self ..)
  simp [BEq.symm same] at different

theorem addNew_of_apart [EquivBEq α] {before after : List α} {item : α}
    (apart : Apart (before ++ item :: after)) : addNew before item = before ++ [item] := by
  rw [addNew, contains_eq_false_of_apart apart]
  rfl

theorem foldl_addNew_of_apart [EquivBEq α] {items known : List α} (apart : Apart (known ++ items)) :
    items.foldl addNew known = known ++ items := by
  induction items generalizing known with
  | nil => simp
  | cons item rest ih =>
      have later : Apart ((known ++ [item]) ++ rest) := by simpa using apart
      rw [List.foldl_cons, addNew_of_apart apart, ih later]
      simp

theorem apart_map {β : Type} [BEq β] {items : List α} {change : α → β} (apart : Apart items)
    (tells : ∀ first second, (change first == change second) = true → (first == second) = true) :
    Apart (items.map change) := by
  refine List.pairwise_map.mpr (apart.imp fun {first second} different => Bool.eq_false_iff.mpr fun same => ?_)
  simp [tells first second same] at different

/-- Lists of parts have no equal parts if items with equal parts have equal keys, and the keys are apart. -/
theorem apart_flatMap {β κ : Type} [BEq κ] {items : List β} (key : β → κ) {parts : β → List α}
    (apart : Apart (items.map key)) (within : ∀ item ∈ items, Apart (parts item))
    (tells : ∀ first second, ∀ part ∈ parts first, ∀ other ∈ parts second, (part == other) = true →
      (key first == key second) = true) : Apart (items.flatMap parts) := by
  refine List.pairwise_flatMap.mpr ⟨within, (List.pairwise_map.mp apart).imp ?_⟩
  intro first second different part here other there
  apply Bool.eq_false_iff.mpr
  intro same
  simp [tells first second part here other there same] at different

theorem mem_addNew_iff (items : List α) (item other : α) :
    other ∈ addNew items item ↔ other ∈ items ∨ items.contains item = false ∧ other = item := by
  unfold addNew
  split <;> simp_all

/-- The items that are added one by one are the first ones among those that they equal. -/
theorem mem_foldl_addNew_iff [EquivBEq α] (items known : List α) (item : α) :
    item ∈ items.foldl addNew known ↔
      item ∈ known ∨ known.contains item = false ∧ items.find? (· == item) = some item := by
  induction items generalizing known with
  | nil => simp
  | cons head rest ih =>
      rw [List.foldl_cons, ih, mem_addNew_iff, contains_addNew, List.find?_cons]
      cases same : head == item with
      | true =>
          have symmetric : (item == head) = true := BEq.symm same
          have present : known.contains head = known.contains item := List.contains_congr same
          cases seen : known.contains item with
          | true => simp [symmetric, present, seen]
          | false => simp [symmetric, present, seen, @eq_comm _ item head]
      | false =>
          have different : (item == head) = false := beq_eq_false_comm same
          have other : item ≠ head := by
            rintro rfl
            simp at same
          simp [different, other]

end Apart

section Pairs

variable {α β : Type} [BEq α] [BEq β]

theorem prod_beq_iff (left right : α × β) :
    (left == right) = true ↔ (left.1 == right.1) = true ∧ (left.2 == right.2) = true :=
  Bool.and_eq_true_iff

instance prodEquivBEq [EquivBEq α] [EquivBEq β] : EquivBEq (α × β) where
  rfl := (prod_beq_iff ..).mpr ⟨BEq.rfl, BEq.rfl⟩
  symm same := by
    obtain ⟨first, second⟩ := (prod_beq_iff ..).mp same
    exact (prod_beq_iff ..).mpr ⟨BEq.symm first, BEq.symm second⟩
  trans left right := by
    obtain ⟨first, second⟩ := (prod_beq_iff ..).mp left
    obtain ⟨third, fourth⟩ := (prod_beq_iff ..).mp right
    exact (prod_beq_iff ..).mpr ⟨BEq.trans first third, BEq.trans second fourth⟩

end Pairs

section Place

variable {α : Type} [BEq α] [EquivBEq α] {items others : List α} {item other : α}

theorem findIdx_lt_length (present : items.contains item = true) :
    items.findIdx (· == item) < items.length := by
  obtain ⟨known, here, same⟩ := List.contains_iff_exists_mem_beq.mp present
  exact List.findIdx_lt_length_of_exists ⟨known, here, BEq.symm same⟩

theorem findIdx_congr (same : (item == other) = true) :
    items.findIdx (· == item) = items.findIdx (· == other) := by
  congr 1
  funext known
  exact BEq.congr_right same

theorem findIdx_eq_iff (present : items.contains item = true) :
    items.findIdx (· == item) = items.findIdx (· == other) ↔ (item == other) = true := by
  refine ⟨fun places => ?_, findIdx_congr⟩
  have within := findIdx_lt_length present
  have otherWithin : items.findIdx (· == other) < items.length := places ▸ within
  have here : (items[items.findIdx (· == item)] == item) = true :=
    @List.findIdx_getElem _ (· == item) items within
  have there : (items[items.findIdx (· == other)] == other) = true :=
    @List.findIdx_getElem _ (· == other) items otherWithin
  simp only [← places] at there
  exact BEq.trans (BEq.symm here) there

theorem findIdx_getElem_of_apart (apart : Apart items) {place : Nat} (within : place < items.length) :
    items.findIdx (· == items[place]) = place := by
  refine (List.findIdx_eq within).mpr ⟨BEq.rfl, fun earlier before => ?_⟩
  exact List.pairwise_iff_getElem.mp apart earlier place (by omega) within before

theorem length_le_of_apart (apart : Apart items) (known : ∀ item ∈ items, others.contains item = true) :
    items.length ≤ others.length := by
  have places : (items.map fun item => others.findIdx (· == item)).Nodup := by
    refine List.pairwise_map.mpr (apart.imp_of_mem fun {first second} here _ different same => ?_)
    simp [(findIdx_eq_iff (known first here)).mp same] at different
  have bounded : (items.map fun item => others.findIdx (· == item)) ⊆ List.range others.length := by
    intro place present
    obtain ⟨item, here, rfl⟩ := List.mem_map.mp present
    exact List.mem_range.mpr (findIdx_lt_length (known item here))
  simpa using places.length_le_of_subset bounded

end Place

namespace Table

variable {κ ν : Type} [BEq κ]

theorem contains_iff [EquivBEq κ] (table : Table κ ν) (key : κ) :
    table.contains key = true ↔ ∃ known ∈ table.keys, (known == key) = true := by
  simp [contains, get?, keys]

theorem get?_of_mem [EquivBEq κ] {table : Table κ ν} (apart : Apart table.keys) {known key : κ} {value : ν}
    (present : (known, value) ∈ table.entries) (same : (known == key) = true) :
    table.get? key = some value := by
  obtain ⟨entries⟩ := table
  simp only [get?, keys] at *
  induction entries with
  | nil => simp at present
  | cons first rest ih =>
      obtain ⟨here, later⟩ := List.pairwise_cons.mp apart
      rcases List.mem_cons.mp present with rfl | present
      · simp [same]
      · -- an earlier entry has another key
        have different : (first.1 == key) = false := by
          apply Bool.eq_false_iff.mpr
          intro equal
          have clash := here known (List.mem_map_of_mem present)
          simp [BEq.trans equal (BEq.symm same)] at clash
        rw [List.find?_cons, different]
        exact ih later present

theorem exists_entry_iff [EquivBEq κ] {table : Table κ ν} (apart : Apart table.keys) (key : κ) (value : ν) :
    table.get? key = some value ↔ ∃ known, (known, value) ∈ table.entries ∧ (known == key) = true := by
  constructor
  · intro found
    obtain ⟨⟨known, other⟩, first, rfl⟩ := Option.map_eq_some_iff.mp found
    exact ⟨known, List.mem_of_find?_eq_some first, by simpa using List.find?_some first⟩
  · rintro ⟨known, present, same⟩
    exact get?_of_mem apart present same

@[simp] theorem keys_modify (table : Table κ ν) (key : κ) (change : ν → ν) :
    (table.modify key change).keys = table.keys := by
  simp only [keys, modify, List.map_map]
  refine List.map_congr_left fun entry _ => ?_
  simp only [Function.comp_apply]
  split <;> rfl

theorem contains_eq_contains_keys [EquivBEq κ] (table : Table κ ν) (key : κ) :
    table.contains key = table.keys.contains key := by
  rw [Bool.eq_iff_iff, contains_iff, List.contains_iff_exists_mem_beq]
  exact exists_congr fun known => and_congr_right fun _ => ⟨BEq.symm, BEq.symm⟩

theorem keys_putNew [EquivBEq κ] (table : Table κ ν) (key : κ) (value : ν) :
    (table.putNew key value).keys = addNew table.keys key := by
  unfold putNew addNew
  rw [contains_eq_contains_keys]
  split
  · rfl
  · simp [keys]

@[simp] theorem keys_put [EquivBEq κ] (table : Table κ ν) (key : κ) (value : ν) :
    (table.put key value).keys = addNew table.keys key := by
  rw [put, keys_modify, keys_putNew]

theorem modify_of_apart [EquivBEq κ] {before after : List (κ × ν)} {key : κ} {value : ν}
    (apart : Apart (keys ⟨before ++ (key, value) :: after⟩)) (change : ν → ν) :
    (⟨before ++ (key, value) :: after⟩ : Table κ ν).modify key change =
      ⟨before ++ (key, change value) :: after⟩ := by
  simp only [keys, List.map_append, List.map_cons] at apart
  obtain ⟨-, onward, across⟩ := List.pairwise_append.mp apart
  have untouched {entries : List (κ × ν)} (different : ∀ entry ∈ entries, (entry.1 == key) = false) :
      (entries.map fun entry => if entry.1 == key then (entry.1, change entry.2) else entry) = entries := by
    rw [List.map_congr_left (g := id) fun entry present => by simp [different entry present], List.map_id]
  have earlier : ∀ entry ∈ before, (entry.1 == key) = false := fun entry present =>
    across entry.1 (List.mem_map_of_mem present) key (List.mem_cons_self ..)
  have later : ∀ entry ∈ after, (entry.1 == key) = false := fun entry present =>
    beq_eq_false_comm ((List.pairwise_cons.mp onward).1 entry.1 (List.mem_map_of_mem present))
  simp [modify, untouched earlier, untouched later]

theorem putNew_of_absent {table : Table κ ν} {key : κ} (absent : table.contains key = false) (value : ν) :
    table.putNew key value = ⟨table.entries ++ [(key, value)]⟩ := by
  rw [putNew, absent]
  rfl

theorem put_of_absent [EquivBEq κ] {table : Table κ ν} (apart : Apart table.keys) {key : κ}
    (absent : table.contains key = false) (value : ν) :
    table.put key value = ⟨table.entries ++ [(key, value)]⟩ := by
  rw [put, putNew_of_absent absent]
  apply modify_of_apart
  rw [contains_eq_contains_keys] at absent
  simpa [keys] using apart_concat apart absent

theorem get?_mapValues (table : Table κ ν) {μ : Type} (change : ν → μ) (key : κ) :
    (⟨table.entries.map fun entry => (entry.1, change entry.2)⟩ : Table κ μ).get? key =
      (table.get? key).map change := by
  simp [get?, List.find?_map, Function.comp_def]

/-- The value is found under the key, up to equality. -/
def Holds [BEq ν] (table : Table κ ν) (key : κ) (value : ν) : Prop :=
  ∃ found, table.get? key = some found ∧ (found == value) = true

theorem within_iff [EquivBEq κ] {table : Table κ ν} (apart : Apart table.keys) (agree : ν → ν → Bool)
    (other : Table κ ν) : table.within agree other = true ↔ ∀ key value, table.get? key = some value →
      ∃ found, other.get? key = some found ∧ agree value found = true := by
  simp only [within, List.all_eq_true, Option.any_eq_true]
  constructor
  · intro every key value found
    obtain ⟨known, present, same⟩ := (exists_entry_iff apart key value).mp found
    rw [← other.get?_congr same]
    exact every (known, value) present
  · intro every entry present
    exact every entry.1 entry.2 (get?_of_mem apart present BEq.rfl)

theorem same_beq_iff [EquivBEq κ] [BEq ν] [EquivBEq ν] {left right : Table κ ν} (leftApart : Apart left.keys)
    (rightApart : Apart right.keys) : left.same (· == ·) right = true ↔
      ∀ key value, left.Holds key value ↔ right.Holds key value := by
  simp only [same, Bool.and_eq_true, within_iff leftApart, within_iff rightApart]
  constructor
  · rintro ⟨forth, back⟩ key value
    constructor <;> rintro ⟨found, here, equal⟩
    · obtain ⟨other, there, agrees⟩ := forth key found here
      exact ⟨other, there, BEq.trans (BEq.symm agrees) equal⟩
    · obtain ⟨other, there, agrees⟩ := back key found here
      exact ⟨other, there, BEq.trans (BEq.symm agrees) equal⟩
  · intro agree
    constructor <;> intro key value found
    · obtain ⟨other, there, equal⟩ := (agree key value).mp ⟨value, found, BEq.rfl⟩
      exact ⟨other, there, BEq.symm equal⟩
    · obtain ⟨other, there, equal⟩ := (agree key value).mpr ⟨value, found, BEq.rfl⟩
      exact ⟨other, there, BEq.symm equal⟩

end Table

theorem sameMembers_iff {α : Type} [BEq α] [EquivBEq α] (left right : List α) :
    sameMembers left right = true ↔ ∀ item, left.contains item = right.contains item := by
  have included (items others : List α) :
      items.all others.contains = true ↔ ∀ item, items.contains item = true → others.contains item = true := by
    rw [List.all_eq_true]
    constructor
    · intro every item present
      obtain ⟨known, here, same⟩ := List.contains_iff_exists_mem_beq.mp present
      obtain ⟨other, there, equal⟩ := List.contains_iff_exists_mem_beq.mp (every known here)
      exact List.contains_iff_exists_mem_beq.mpr ⟨other, there, BEq.trans same equal⟩
    · intro every item present
      exact every item (List.contains_iff_exists_mem_beq.mpr ⟨item, present, BEq.rfl⟩)
  rw [sameMembers, Bool.and_eq_true, included, included]
  exact ⟨fun both item => Bool.eq_iff_iff.mpr ⟨both.1 item, both.2 item⟩,
    fun agree => ⟨fun item here => agree item ▸ here, fun item here => agree item ▸ here⟩⟩

end FiniteAutomata
