import FiniteAutomata.Piece
import FiniteAutomata.State

set_option autoImplicit false

/-!
What can be in a set: states, labels, sets of such, and objects that are nothing but themselves. States are
the same when they have the same name, sets when each has all that the other has.
-/

namespace FiniteAutomata

/-- A set remembers its name, or why it has none. -/
inductive Member where
  | state (state : State)
  | label (label : Label)
  | set (members : List Member) (name : Except Error String)
  | object (kind : Kind) (identity : Nat) (quoted : String)

namespace Member

mutual

def same : Member → Member → Bool
  | .state left, .state right => left == right
  | .label left, .label right => left == right
  | .set lefts _, .set rights _ => within lefts rights && rights.all (holds lefts)
  | .object leftKind left _, .object rightKind right _ => leftKind == rightKind && left == right
  | _, _ => false

def within : List Member → List Member → Bool
  | [], _ => true
  | left :: lefts, rights => rights.any (same left) && within lefts rights

def holds : List Member → Member → Bool
  | [], _ => false
  | left :: lefts, right => same left right || holds lefts right

end

instance : BEq Member := ⟨same⟩

mutual

theorem induct {P : Member → Prop} (state : ∀ known, P (.state known)) (label : ∀ value, P (.label value))
    (set : ∀ members name, (∀ member ∈ members, P member) → P (.set members name))
    (object : ∀ kind identity quoted, P (.object kind identity quoted)) : ∀ member, P member
  | .state known => state known
  | .label value => label value
  | .set members name => set members name (inductAll state label set object members)
  | .object kind identity quoted => object kind identity quoted

theorem inductAll {P : Member → Prop} (state : ∀ known, P (.state known))
    (label : ∀ value, P (.label value))
    (set : ∀ members name, (∀ member ∈ members, P member) → P (.set members name))
    (object : ∀ kind identity quoted, P (.object kind identity quoted)) :
    ∀ members : List Member, ∀ member ∈ members, P member
  | [] => by simp
  | head :: tail => fun member present =>
      (List.mem_cons.mp present).elim
        (fun first => first ▸ induct state label set object head)
        (fun later => inductAll state label set object tail member later)

end

theorem within_cons (left : Member) (lefts rights : List Member) :
    within (left :: lefts) rights = (rights.any (left == ·) && within lefts rights) := rfl

theorem holds_cons (left : Member) (lefts : List Member) (right : Member) :
    holds (left :: lefts) right = (left == right || holds lefts right) := rfl

@[simp] theorem state_beq_state (left right : State) : (state left == state right) = (left == right) := rfl

@[simp] theorem label_beq_label (left right : Label) : (label left == label right) = (left == right) := rfl

@[simp] theorem state_beq_label (left : State) (right : Label) : (state left == label right) = false := rfl

@[simp] theorem label_beq_state (left : Label) (right : State) : (label left == state right) = false := rfl

theorem set_beq (lefts rights : List Member) (leftName rightName : Except Error String) :
    (set lefts leftName == set rights rightName) = (within lefts rights && rights.all (holds lefts)) := rfl

theorem object_beq (leftKind rightKind : Kind) (left right : Nat) (leftText rightText : String) :
    (object leftKind left leftText == object rightKind right rightText) =
      (leftKind == rightKind && left == right) := rfl

theorem within_iff (lefts rights : List Member) :
    within lefts rights = true ↔ ∀ left ∈ lefts, ∃ right ∈ rights, (left == right) = true := by
  induction lefts with
  | nil => exact iff_of_true rfl (by simp)
  | cons left lefts ih => simp [within_cons, ih]

theorem holds_iff (lefts : List Member) (right : Member) :
    holds lefts right = true ↔ ∃ left ∈ lefts, (left == right) = true := by
  induction lefts with
  | nil => exact iff_of_false Bool.false_ne_true (by simp)
  | cons left lefts ih => simp [holds_cons, ih]

theorem set_beq_set (lefts rights : List Member) (leftName rightName : Except Error String) :
    (set lefts leftName == set rights rightName) = true ↔
      (∀ left ∈ lefts, ∃ right ∈ rights, (left == right) = true) ∧
        ∀ right ∈ rights, ∃ left ∈ lefts, (left == right) = true := by
  rw [set_beq, Bool.and_eq_true, within_iff, List.all_eq_true]
  simp only [holds_iff]

theorem object_beq_object (leftKind rightKind : Kind) (left right : Nat) (leftText rightText : String) :
    (object leftKind left leftText == object rightKind right rightText) = true ↔
      leftKind = rightKind ∧ left = right := by
  rw [object_beq, Bool.and_eq_true, beq_iff_eq, beq_iff_eq]

theorem beq_refl (member : Member) : (member == member) = true := by
  induction member using induct with
  | state known => simp
  | label value => simp
  | set members name ih =>
      exact (set_beq_set ..).mpr ⟨fun left here => ⟨left, here, ih left here⟩,
        fun right here => ⟨right, here, ih right here⟩⟩
  | object kind identity quoted => exact (object_beq_object ..).mpr ⟨rfl, rfl⟩

theorem beq_symm (left : Member) : ∀ right, (left == right) = true → (right == left) = true := by
  -- members of different kinds are never the same
  induction left using induct with
  | state known =>
      intro right equal
      cases right with
      | state other =>
          rw [state_beq_state] at equal ⊢
          exact BEq.symm equal
      | label | set | object => exact absurd equal Bool.false_ne_true
  | label value =>
      intro right equal
      cases right with
      | label other =>
          rw [label_beq_label] at equal ⊢
          exact BEq.symm equal
      | state | set | object => exact absurd equal Bool.false_ne_true
  | set members name ih =>
      intro right equal
      cases right with
      | set others otherName =>
          obtain ⟨forth, back⟩ := (set_beq_set ..).mp equal
          refine (set_beq_set ..).mpr ⟨fun other here => ?_, fun member here => ?_⟩
          · obtain ⟨member, there, same⟩ := back other here
            exact ⟨member, there, ih member there other same⟩
          · obtain ⟨other, there, same⟩ := forth member here
            exact ⟨other, there, ih member here other same⟩
      | state | label | object => exact absurd equal Bool.false_ne_true
  | object kind identity quoted =>
      intro right equal
      cases right with
      | object otherKind other otherText =>
          obtain ⟨kinds, identities⟩ := (object_beq_object ..).mp equal
          exact (object_beq_object ..).mpr ⟨kinds.symm, identities.symm⟩
      | state | label | set => exact absurd equal Bool.false_ne_true

theorem beq_trans (left : Member) : ∀ middle right,
    (left == middle) = true → (middle == right) = true → (left == right) = true := by
  induction left using induct with
  | state known =>
      intro middle right first second
      cases middle with
      | state half =>
          cases right with
          | state last =>
              rw [state_beq_state] at first second ⊢
              exact BEq.trans first second
          | label | set | object => exact absurd second Bool.false_ne_true
      | label | set | object => exact absurd first Bool.false_ne_true
  | label value =>
      intro middle right first second
      cases middle with
      | label half =>
          cases right with
          | label last =>
              rw [label_beq_label] at first second ⊢
              exact BEq.trans first second
          | state | set | object => exact absurd second Bool.false_ne_true
      | state | set | object => exact absurd first Bool.false_ne_true
  | set members name ih =>
      intro middle right first second
      cases middle with
      | set middles middleName =>
          cases right with
          | set rights rightName =>
              obtain ⟨forth, back⟩ := (set_beq_set ..).mp first
              obtain ⟨onward, backward⟩ := (set_beq_set ..).mp second
              refine (set_beq_set ..).mpr ⟨fun member here => ?_, fun last here => ?_⟩
              · obtain ⟨half, there, same⟩ := forth member here
                obtain ⟨last, reached, equal⟩ := onward half there
                exact ⟨last, reached, ih member here half last same equal⟩
              · obtain ⟨half, there, equal⟩ := backward last here
                obtain ⟨member, origin, same⟩ := back half there
                exact ⟨member, origin, ih member origin half last same equal⟩
          | state | label | object => exact absurd second Bool.false_ne_true
      | state | label | object => exact absurd first Bool.false_ne_true
  | object kind identity quoted =>
      intro middle right first second
      cases middle with
      | object middleKind middleIdentity middleText =>
          cases right with
          | object rightKind rightIdentity rightText =>
              obtain ⟨kinds, identities⟩ := (object_beq_object ..).mp first
              obtain ⟨otherKinds, otherIdentities⟩ := (object_beq_object ..).mp second
              exact (object_beq_object ..).mpr ⟨kinds.trans otherKinds, identities.trans otherIdentities⟩
          | state | label | set => exact absurd second Bool.false_ne_true
      | state | label | set => exact absurd first Bool.false_ne_true

instance : EquivBEq Member where
  rfl {member} := beq_refl member
  symm {left right} := beq_symm left right
  trans {left middle right} := beq_trans left middle right

def kind : Member → Kind
  | .state _ => .state
  | .label value => value.kind
  | .set _ _ => .stateSet
  | .object kind _ _ => kind

def state? : Member → Option State
  | .state known => some known
  | _ => none

def asState (member : Member) : Except Error State :=
  match member.state? with
  | some known => .ok known
  | none => .error (.lacksPart member.kind "transitions")

def nameOf : Member → Except Error Piece
  -- States, markers and sets have names. What a namer has as its name is a method and no text.
  | .state known => .ok (.ok known.name)
  | .label (.marker name _) => .ok (.ok name)
  | .set _ name => name.map .ok
  | .object .namer _ _ => .ok (.error .method)
  | other => .error (.lacksPart other.kind "name")

def namesOf (members : List Member) : Except Error (List String) := do
  Piece.texts (← members.mapM nameOf)

def byName : Member → Member
  -- a state stands for its name where it is looked up or made part of a name
  | .state known => .label (.text known.name)
  | other => other

def quoted : Member → Except Error String
  -- the form in which a member that is no state is reported as unknown
  | .state known => .ok known.quoted
  | .label value => .ok value.quoted
  | .set _ name => name.map fun name => "<StateSet " ++ name ++ ">"
  | .object _ _ quoted => .ok quoted

def items? : Member → Option (List Member)
  -- what there is to go through in a tuple or in a set
  | .label (.tuple items) => some (items.map .label)
  | .set members _ => some members
  | _ => none

mutual

def hashed : Member → Member
  -- members that are the same once each state is replaced by its name have the same hash
  | .state known => .label (.text known.name)
  | .set members name => .set (hashedAll members) name
  | other => other

def hashedAll : List Member → List Member
  | [] => []
  | head :: tail => hashed head :: hashedAll tail

end

@[simp] theorem asState_state (known : State) : (state known).asState = .ok known := rfl

@[simp] theorem nameOf_state (known : State) : (state known).nameOf = .ok (.ok known.name) := rfl

theorem namesOf_map_state (known : List State) :
    namesOf (known.map .state) = .ok (known.map State.name) := by
  have pieces : (known.map Member.state).mapM nameOf = .ok ((known.map State.name).map .ok) := by
    induction known with
    | nil => rfl
    | cons head tail ih =>
        rw [List.map_cons, List.mapM_cons, nameOf_state, ih]
        rfl
  rw [namesOf, pieces]
  exact Piece.texts_map_ok _

end Member

end FiniteAutomata
