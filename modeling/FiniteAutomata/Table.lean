set_option autoImplicit false

/-!
Collections that remember the order in which their members came: lists without equal members, and tables.
Of several equal keys the first stays, while the value is the last one put. Keys are compared with `==`.
-/

namespace FiniteAutomata

section Distinct

variable {α : Type} [BEq α]

def addNew (items : List α) (item : α) : List α :=
  if items.contains item then items else items ++ [item]

theorem contains_addNew [EquivBEq α] (items : List α) (item other : α) :
    (addNew items item).contains other = (items.contains other || other == item) := by
  unfold addNew
  split
  · rename_i present
    by_cases equal : (other == item) = true
    · obtain ⟨found, member, same⟩ := List.contains_iff_exists_mem_beq.mp present
      have : items.contains other = true :=
        List.contains_iff_exists_mem_beq.mpr ⟨found, member, BEq.trans equal same⟩
      simp [this]
    · simp [equal]
  · simp

theorem mem_addNew {items : List α} {item other : α} (present : other ∈ addNew items item) :
    other ∈ items ∨ other = item := by
  unfold addNew at present
  split at present
  · exact .inl present
  · simpa using present

theorem mem_foldl_addNew {items known : List α} {other : α} (present : other ∈ items.foldl addNew known) :
    other ∈ known ∨ other ∈ items := by
  induction items generalizing known with
  | nil => exact .inl present
  | cons item rest ih =>
      rcases ih present with earlier | later
      · rcases mem_addNew earlier with old | rfl
        · exact .inl old
        · exact .inr (List.mem_cons_self ..)
      · exact .inr (List.mem_cons_of_mem _ later)

theorem contains_foldl_addNew [EquivBEq α] (items known : List α) (other : α) :
    (items.foldl addNew known).contains other = (known.contains other || items.contains other) := by
  induction items generalizing known with
  | nil => simp
  | cons item rest ih => simp [ih, contains_addNew, Bool.or_assoc]

theorem eraseDups_map {β : Type} [BEq β] (change : α → β)
    (faithful : ∀ left right, (change left == change right) = (left == right)) :
    (items : List α) → (items.map change).eraseDups = items.eraseDups.map change
  | [] => by simp
  | head :: tail => by
      have later := eraseDups_map change faithful (tail.filter fun other => !other == head)
      have kept : (tail.map change).filter (fun other => !other == change head) =
          (tail.filter fun other => !other == head).map change := by
        simp [List.filter_map, Function.comp_def, faithful]
      rw [List.map_cons, List.eraseDups_cons, List.eraseDups_cons, List.map_cons, kept, later]
  termination_by items => items.length
  decreasing_by exact Nat.lt_succ_of_le (List.length_filter_le ..)

def sameMembers (left right : List α) : Bool :=
  left.all right.contains && right.all left.contains

end Distinct

structure Table (κ ν : Type) where
  entries : List (κ × ν)

namespace Table

variable {κ ν : Type}

def empty : Table κ ν := ⟨[]⟩

def keys (table : Table κ ν) : List κ := table.entries.map Prod.fst

def size (table : Table κ ν) : Nat := table.entries.length

variable [BEq κ]

def get? (table : Table κ ν) (key : κ) : Option ν :=
  (table.entries.find? fun entry => entry.1 == key).map Prod.snd

def contains (table : Table κ ν) (key : κ) : Bool :=
  (table.get? key).isSome

def modify (table : Table κ ν) (key : κ) (change : ν → ν) : Table κ ν :=
  ⟨table.entries.map fun entry => if entry.1 == key then (entry.1, change entry.2) else entry⟩

def putNew (table : Table κ ν) (key : κ) (value : ν) : Table κ ν :=
  if table.contains key then table else ⟨table.entries ++ [(key, value)]⟩

def put (table : Table κ ν) (key : κ) (value : ν) : Table κ ν :=
  (table.putNew key value).modify key fun _ => value

@[simp] theorem get?_empty (key : κ) : (empty : Table κ ν).get? key = none := rfl

theorem get?_modify [EquivBEq κ] (table : Table κ ν) (key other : κ) (change : ν → ν) :
    (table.modify key change).get? other =
      if key == other then (table.get? other).map change else table.get? other := by
  obtain ⟨entries⟩ := table
  simp only [get?, modify]
  induction entries with
  | nil => simp
  | cons entry rest ih =>
      simp only [List.map_cons, List.find?_cons]
      by_cases here : (entry.1 == other) = true <;> by_cases changed : (entry.1 == key) = true
      · have : (key == other) = true := BEq.trans (BEq.symm changed) here
        simp [here, changed, this]
      · have : (key == other) = false := by
          apply Bool.eq_false_iff.mpr
          intro equal
          exact changed (BEq.trans here (BEq.symm equal))
        simp [here, changed, this]
      · simp only [changed, here, if_true, ih]
      · simp only [changed, here, if_false, Bool.false_eq_true, ih]

theorem get?_putNew [EquivBEq κ] (table : Table κ ν) (key other : κ) (value : ν) :
    (table.putNew key value).get? other =
      if key == other && !table.contains key then some value else table.get? other := by
  unfold putNew
  split
  · rename_i present
    simp [present]
  · rename_i absent
    simp only [get?, List.find?_append]
    by_cases equal : (key == other) = true
    · have none : table.entries.find? (fun entry => entry.1 == other) = none := by
        have : table.get? key = none := by simpa [contains] using absent
        simp only [get?, Option.map_eq_none_iff, List.find?_eq_none] at this ⊢
        intro entry member found
        exact this entry member (BEq.trans found (BEq.symm equal))
      simp [none, equal, absent]
    · simp [equal]

theorem get?_congr [EquivBEq κ] (table : Table κ ν) {key other : κ} (equal : (key == other) = true) :
    table.get? key = table.get? other := by
  simp only [get?]
  congr 2
  funext entry
  exact BEq.congr_right equal

@[simp] theorem get?_put [EquivBEq κ] (table : Table κ ν) (key other : κ) (value : ν) :
    (table.put key value).get? other = if key == other then some value else table.get? other := by
  rw [put, get?_modify, get?_putNew]
  by_cases equal : (key == other) = true
  · cases present : table.get? key with
    | none => simp [equal, contains, present]
    | some found => simp [equal, contains, present, ← table.get?_congr equal]
  · simp [equal]

theorem exists_entry_of_get? {table : Table κ ν} {key : κ} {value : ν} (found : table.get? key = some value) :
    ∃ known, (known, value) ∈ table.entries := by
  obtain ⟨⟨known, other⟩, first, rfl⟩ := Option.map_eq_some_iff.mp found
  exact ⟨known, List.mem_of_find?_eq_some first⟩

theorem get?_map [EquivBEq κ] {α : Type} {items : List α} (key : α → κ) (value : α → ν) {item : α}
    (present : item ∈ items)
    (distinct : ∀ other ∈ items, (key other == key item) = true → other = item) :
    (⟨items.map fun other => (key other, value other)⟩ : Table κ ν).get? (key item) =
      some (value item) := by
  -- a table that is made from items finds each of them under a key that no other has
  simp only [get?, List.find?_map, Option.map_map]
  have found : (items.find? fun other => key other == key item) = some item := by
    cases first : items.find? fun other => key other == key item with
    | none => simpa using List.find?_eq_none.mp first item present
    | some other =>
        rw [distinct other (List.mem_of_find?_eq_some first) (by simpa using List.find?_some first)]
  simp only [Function.comp_def, found, Option.map_some]

theorem get?_filterMap [EquivBEq κ] (keys : List κ) (value : κ → Option ν) {key : κ}
    (same : ∀ other, (other == key) = true → value other = value key) :
    (⟨keys.filterMap fun other => (value other).map fun found => (other, found)⟩ : Table κ ν).get? key =
      if keys.contains key then value key else none := by
  -- a table that is made from keys gives what each of them has, if equal keys have the same
  simp only [get?]
  induction keys with
  | nil => rfl
  | cons head rest ih =>
      by_cases equal : (head == key) = true
      · have here : (key == head) = true := BEq.symm equal
        simp only [List.contains_cons, here, Bool.true_or, if_true]
        cases found : value head with
        | none =>
            have missing : value key = none := (same head equal).symm.trans found
            simp only [List.filterMap_cons, found, Option.map_none, ih, missing, ite_self]
        | some target =>
            have given : value key = some target := (same head equal).symm.trans found
            simp [found, given, equal]
      · have elsewhere : (key == head) = false := by
          apply Bool.eq_false_iff.mpr
          intro symmetric
          exact equal (BEq.symm symmetric)
        simp only [List.contains_cons, elsewhere, Bool.false_or]
        cases found : value head with
        | none => simp only [List.filterMap_cons, found, Option.map_none, ih]
        | some target => simp [found, equal, ← ih]

def within (agree : ν → ν → Bool) (table other : Table κ ν) : Bool :=
  table.entries.all fun entry => (other.get? entry.1).any (agree entry.2)

def same (agree : ν → ν → Bool) (left right : Table κ ν) : Bool :=
  left.within agree right && right.within agree left

end Table

end FiniteAutomata
