set_option autoImplicit false

/-!
Labels: the values that serve as input symbols, as names of deterministic states, and as markers. Two
labels are the same when they are equal once every truth value is read as the number 0 or 1.
-/

namespace FiniteAutomata

/-- A marker equals itself only; its number tells markers of one name apart. -/
inductive Label where
  | null
  | truth (value : Bool)
  | int (value : Int)
  | text (value : String)
  | tuple (items : List Label)
  | marker (name : String) (number : Int)
  deriving Inhabited

namespace Label

def ofTruth (value : Bool) : Int :=
  if value then 1 else 0

mutual

def normal : Label → Label
  -- the label with every truth value in it read as a number
  | .truth value => .int (ofTruth value)
  | .tuple items => .tuple (normalAll items)
  | other => other

def normalAll : List Label → List Label
  | [] => []
  | head :: tail => normal head :: normalAll tail

end

mutual

def same : Label → Label → Bool
  | .null, .null => true
  | .truth left, .truth right => left == right
  | .truth left, .int right => ofTruth left == right
  | .int left, .truth right => left == ofTruth right
  | .int left, .int right => left == right
  | .text left, .text right => left == right
  | .tuple left, .tuple right => sameAll left right
  | .marker leftName leftNumber, .marker rightName rightNumber =>
      leftName == rightName && leftNumber == rightNumber
  | _, _ => false

def sameAll : List Label → List Label → Bool
  | [], [] => true
  | left :: lefts, right :: rights => same left right && sameAll lefts rights
  | _, _ => false

end

instance : BEq Label := ⟨same⟩

theorem ofTruth_inj {left right : Bool} : ofTruth left = ofTruth right ↔ left = right := by
  cases left <;> cases right <;> decide

mutual

theorem same_iff : (left right : Label) → (same left right = true ↔ left.normal = right.normal)
  | .null, right => by cases right <;> simp [same, normal]
  | .truth left, right => by cases right <;> simp [same, normal, ofTruth_inj]
  | .int left, right => by cases right <;> simp [same, normal]
  | .text left, right => by cases right <;> simp [same, normal]
  | .marker name number, right => by cases right <;> simp [same, normal]
  | .tuple left, right => by
      cases right with
      | tuple right => simp [same, normal, sameAll_iff left right]
      | null | truth | int | text | marker => simp [same, normal]

theorem sameAll_iff : (lefts rights : List Label) →
    (sameAll lefts rights = true ↔ normalAll lefts = normalAll rights)
  | [], rights => by cases rights <;> simp [sameAll, normalAll]
  | left :: lefts, [] => by simp [sameAll, normalAll]
  | left :: lefts, right :: rights => by
      simp [sameAll, normalAll, same_iff left right, sameAll_iff lefts rights]

end

theorem beq_iff (left right : Label) : (left == right) = true ↔ left.normal = right.normal :=
  same_iff left right

instance : EquivBEq Label where
  rfl := (beq_iff _ _).mpr rfl
  symm same := (beq_iff _ _).mpr ((beq_iff _ _).mp same).symm
  trans first second := (beq_iff _ _).mpr (((beq_iff _ _).mp first).trans ((beq_iff _ _).mp second))

@[simp] theorem text_beq (left right : String) : (text left == text right) = (left == right) := by
  simp [BEq.beq, same]

theorem text_beq_iff (name : String) (label : Label) : (text name == label) = true ↔ label = text name := by
  cases label <;> simp [BEq.beq, same, eq_comm]

theorem beq_null_iff (label : Label) : (label == .null) = true ↔ label = .null := by
  cases label <;> simp [BEq.beq, same]

end Label

end FiniteAutomata
