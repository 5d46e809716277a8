set_option autoImplicit false

/-!
Texts made of parts with a mark between any two. The parts can be read back where none of them holds the mark, and
so can the fields of a table whose lines and columns are divided by marks.
-/

namespace FiniteAutomata

/-- What stands between the marks of a text. -/
def parts (mark : Char) (text : String) : List String :=
  (text.toList.splitOn mark).map String.ofList

/-- The text does not hold the mark. -/
def Lacks (mark : Char) (text : String) : Prop :=
  mark ∉ text.toList

variable {mark : Char}

theorem lacks_append {first second : String} :
    Lacks mark (first ++ second) ↔ Lacks mark first ∧ Lacks mark second := by
  simp [Lacks]

theorem lacks_intercalate {separator : String} {items : List String} (between : Lacks mark separator)
    (within : ∀ item ∈ items, Lacks mark item) : Lacks mark (separator.intercalate items) := by
  induction items with
  | nil => simp [Lacks]
  | cons first rest ih =>
      obtain ⟨here, later⟩ := List.forall_mem_cons.mp within
      cases rest with
      | nil => simpa using here
      | cons second others =>
          rw [String.intercalate_cons_cons]
          exact lacks_append.mpr ⟨lacks_append.mpr ⟨here, between⟩, ih later⟩

theorem parts_of_lacks {text : String} (whole : Lacks mark text) : parts mark text = [text] := by
  rw [parts, List.splitOn_eq_singleton whole]
  simp

theorem parts_append {first : String} (whole : Lacks mark first) (rest : String) :
    parts mark (first ++ String.singleton mark ++ rest) = first :: parts mark rest := by
  have divided : (first ++ String.singleton mark ++ rest).toList = first.toList ++ mark :: rest.toList := by simp
  rw [parts, divided, List.splitOn_append_cons_self_of_not_mem whole]
  simp [parts]

/-- The parts that the text of some items has: the items, or one empty part if there are none. -/
def fields (items : List String) : List String :=
  if items.isEmpty then [""] else items

theorem parts_intercalate {items : List String} (within : ∀ item ∈ items, Lacks mark item) :
    parts mark ((String.singleton mark).intercalate items) = fields items := by
  induction items with
  | nil => simp [parts, fields]
  | cons first rest ih =>
      obtain ⟨here, later⟩ := List.forall_mem_cons.mp within
      cases rest with
      | nil =>
          rw [String.intercalate_singleton]
          exact parts_of_lacks here
      | cons second others =>
          rw [String.intercalate_cons_cons, parts_append here, ih later]
          rfl

theorem getElem?_fields_iff (items : List String) (place : Nat) {item : String} (filled : item ≠ "") :
    (fields items)[place]? = some item ↔ items[place]? = some item := by
  cases items with
  | nil => cases place <;> simp [fields, filled.symm]
  | cons first rest => rfl

/-- Items that are not empty can be told from their text, even if there are none. -/
theorem intercalate_inj {left right : List String} (leftFilled : "" ∉ left) (rightFilled : "" ∉ right)
    (leftWithin : ∀ item ∈ left, Lacks mark item) (rightWithin : ∀ item ∈ right, Lacks mark item) :
    (String.singleton mark).intercalate left = (String.singleton mark).intercalate right ↔ left = right := by
  refine ⟨fun same => ?_, congrArg _⟩
  have read : fields left = fields right := by
    rw [← parts_intercalate leftWithin, same, parts_intercalate rightWithin]
  cases left <;> cases right <;> simp_all [fields]

/-- What stands in a line of a text and in a column of that line. -/
def field? (text : String) (line column : Nat) : Option String :=
  (parts '\n' text)[line]?.bind fun row => (parts '\t' row)[column]?

end FiniteAutomata
