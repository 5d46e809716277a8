import FiniteAutomata.StateSet
import Mathlib.Data.Finset.Dedup
import Mathlib.Data.Finset.Insert

set_option autoImplicit false

/-!
Sets that share a name are the same. What is escaped never holds a bare separator character, so that a name
is read from left to right in one way only: up to the next such character, and on behind the separator.
-/

namespace FiniteAutomata

namespace Namer

variable (namer : Namer)

def followed (names : List String) : List Char :=
  -- the separator and a name after it, for each of the names
  names.flatMap fun name => namer.lead :: namer.rest ++ namer.escapeChars name.toList

def joined : List String → List Char
  | [] => []
  | first :: others => namer.escapeChars first.toList ++ namer.followed others

theorem toList_intercalate_escape (names : List String) :
    (namer.separator.intercalate (names.map namer.escape)).toList = namer.joined names := by
  cases names with
  | nil => simp [joined]
  | cons first others =>
      rw [String.toList_intercalate]
      induction others generalizing first with
      | nil => simp [joined, followed, escape]
      | cons second rest ih =>
          have tail := ih second
          simp only [List.map_cons, List.intercalate_cons_cons] at tail ⊢
          rw [tail]
          simp [joined, followed, escape, separator]

/-- Nothing is left, or a separator comes next. -/
def Bare (rest : List Char) : Prop := ∀ char ∈ rest.head?, char = namer.lead

theorem bare_followed (names : List String) : namer.Bare (namer.followed names) := by
  cases names <;> simp [Bare, followed]

theorem escapeChars_cons (char : Char) (chars : List Char) :
    namer.escapeChars (char :: chars) =
      (if char = '\\' ∨ char = namer.lead then ['\\', char] else [char]) ++ namer.escapeChars chars := by
  simp [escapeChars]

theorem not_bare_escapeChars_cons (char : Char) (chars rest : List Char) :
    ¬ namer.Bare (namer.escapeChars (char :: chars) ++ rest) := by
  -- escaped text does not begin as a separator does
  intro bare
  by_cases special : char = '\\' ∨ char = namer.lead
  · have backslash : '\\' = namer.lead := bare '\\' (by simp [escapeChars_cons, special])
    exact namer.lead_ne backslash.symm
  · have first : char = namer.lead := bare char (by simp [escapeChars_cons, special])
    exact special (.inr first)

theorem escapeChars_append_inj {left right leftRest rightRest : List Char}
    (leftBare : namer.Bare leftRest) (rightBare : namer.Bare rightRest)
    (equal : namer.escapeChars left ++ leftRest = namer.escapeChars right ++ rightRest) :
    left = right ∧ leftRest = rightRest := by
  -- escaped text can be told from what comes after it
  induction left generalizing right with
  | nil =>
      cases right with
      | nil => exact ⟨rfl, equal⟩
      | cons char chars =>
          rw [escapeChars_nil, List.nil_append] at equal
          exact absurd (equal ▸ leftBare) (namer.not_bare_escapeChars_cons char chars rightRest)
  | cons leftChar leftChars ih =>
      cases right with
      | nil =>
          rw [escapeChars_nil, List.nil_append] at equal
          exact absurd (equal ▸ rightBare) (namer.not_bare_escapeChars_cons leftChar leftChars leftRest)
      | cons rightChar rightChars =>
          have heads : leftChar = rightChar ∧
              namer.escapeChars leftChars ++ leftRest = namer.escapeChars rightChars ++ rightRest := by
            rw [escapeChars_cons, escapeChars_cons] at equal
            by_cases leftSpecial : leftChar = '\\' ∨ leftChar = namer.lead <;>
              by_cases rightSpecial : rightChar = '\\' ∨ rightChar = namer.lead
            · simpa [leftSpecial, rightSpecial] using equal
            · rw [if_pos leftSpecial, if_neg rightSpecial] at equal
              exact absurd (.inl (List.cons.inj equal).1.symm) rightSpecial
            · rw [if_neg leftSpecial, if_pos rightSpecial] at equal
              exact absurd (.inl (List.cons.inj equal).1) leftSpecial
            · simpa [leftSpecial, rightSpecial] using equal
          obtain ⟨rfl, later⟩ := heads
          obtain ⟨rfl, rest⟩ := ih later
          exact ⟨rfl, rest⟩

theorem followed_inj {left right : List String} (equal : namer.followed left = namer.followed right) :
    left = right := by
  induction left generalizing right with
  | nil =>
      cases right with
      | nil => rfl
      | cons first others => simp [followed] at equal
  | cons leftFirst leftOthers ih =>
      cases right with
      | nil => simp [followed] at equal
      | cons rightFirst rightOthers =>
          have behind : namer.escapeChars leftFirst.toList ++ namer.followed leftOthers =
              namer.escapeChars rightFirst.toList ++ namer.followed rightOthers := by
            simpa [followed] using equal
          obtain ⟨first, others⟩ := namer.escapeChars_append_inj (namer.bare_followed leftOthers)
            (namer.bare_followed rightOthers) behind
          rw [String.toList_inj.mp first, ih others]

theorem joined_eq_nil_iff (names : List String) : namer.joined names = [] ↔ names = [] ∨ names = [""] := by
  cases names with
  | nil => simp [joined]
  | cons first others =>
      cases others with
      | nil =>
          cases chars : first.toList with
          | nil => simp_all [joined, followed, String.toList_eq_nil_iff]
          | cons char rest =>
              have filled : first ≠ "" := by rintro rfl; simp at chars
              have written : namer.joined [first] ≠ [] := by
                rw [joined, chars, escapeChars_cons]
                split <;> simp
              simp [written, filled]
      | cons second rest => simp [joined, followed]

theorem joined_eq_iff (left right : List String) : namer.joined left = namer.joined right ↔
    left = right ∨ (left = [] ∧ right = [""]) ∨ (left = [""] ∧ right = []) := by
  -- only the list of the empty name is joined into what the empty list is joined into
  constructor
  · intro equal
    cases left with
    | nil => rcases (namer.joined_eq_nil_iff right).mp equal.symm with rfl | rfl <;> simp
    | cons leftFirst leftOthers =>
        cases right with
        | nil => rcases (namer.joined_eq_nil_iff _).mp equal with empty | empty <;> simp_all
        | cons rightFirst rightOthers =>
            obtain ⟨first, others⟩ := namer.escapeChars_append_inj (namer.bare_followed leftOthers)
              (namer.bare_followed rightOthers) equal
            rw [String.toList_inj.mp first, namer.followed_inj others]
            exact .inl rfl
  · rintro (rfl | ⟨rfl, rfl⟩ | ⟨rfl, rfl⟩) <;> simp [joined, followed]

theorem name_eq_iff_canonical (left right : List String) : namer.name left = namer.name right ↔
    canonical left = canonical right ∨ (canonical left = [] ∧ canonical right = [""]) ∨
      (canonical left = [""] ∧ canonical right = []) := by
  rw [← namer.joined_eq_iff, ← toList_intercalate_escape, ← toList_intercalate_escape, String.toList_inj]
  simp only [name]
  rw [String.append_left_inj, String.append_right_inj]

theorem name_congr {left right : List String} (same : ∀ name, name ∈ left ↔ name ∈ right) :
    namer.name left = namer.name right :=
  (namer.name_eq_iff_canonical left right).mpr (.inl ((canonical_eq_iff left right).mpr same))

theorem name_eq_iff_toFinset (left right : List String) : namer.name left = namer.name right ↔
    left.toFinset = right.toFinset ∨ (left.toFinset = ∅ ∧ right.toFinset = {""}) ∨
      (left.toFinset = {""} ∧ right.toFinset = ∅) := by
  -- the names that a list of names stands for, told from its canonical form
  have same (names others : List String) :
      canonical names = canonical others ↔ names.toFinset = others.toFinset := by
    simp [canonical_eq_iff, Finset.ext_iff]
  have none (names : List String) : canonical names = [] ↔ names.toFinset = ∅ := same names []
  have alone (names : List String) : canonical names = [""] ↔ names.toFinset = {""} := same names [""]
  rw [name_eq_iff_canonical, same, none, none, alone, alone]

theorem make_ok {separator : String} (opener closer : Label) (filled : separator ≠ "")
    (unescaped : separator.toList.head? ≠ some '\\') :
    ∃ namer, make separator [opener, closer] = .ok namer := by
  cases chars : separator.toList with
  | nil => exact absurd (String.toList_eq_nil_iff.mp chars) filled
  | cons lead rest =>
      have plain : lead ≠ '\\' := by simpa [chars] using unescaped
      exact ⟨⟨lead, rest, opener, closer, plain⟩, by simp [make, chars, plain]⟩

end Namer

/-- A state, or a name that stands for one. -/
abbrev Bearer := State ⊕ String

namespace Bearer

def member : Bearer → Member
  | .inl state => .state state
  | .inr name => .label (.text name)

def name : Bearer → String
  | .inl state => state.name
  | .inr name => name

def names (bearers : List Bearer) : Finset String :=
  (bearers.map name).toFinset

end Bearer

theorem Namer.nameMembers_map_bearer (namer : Namer) (bearers : List Bearer) :
    namer.nameMembers (bearers.map Bearer.member) = .ok (namer.name (bearers.map Bearer.name)) := by
  have plain : (bearers.map Bearer.member).map Member.byName =
      ((bearers.map Bearer.name).map fun name => Member.label (.text name)).map Member.byName := by
    rw [List.map_map, List.map_map, List.map_map]
    refine List.map_congr_left fun bearer _ => ?_
    cases bearer <;> rfl
  rw [← nameMembers_map_text, nameMembers, nameMembers, plain]

namespace StateSet

theorem names_eraseDups (states : List State) :
    states.eraseDups.map State.name = (states.map State.name).eraseDups :=
  (eraseDups_map State.name (fun _ _ => rfl) states).symm

theorem name_ofList_states (namer : Namer) (states : List State) :
    (ofList namer.nameMembers (states.map .state)).name =
      .ok (namer.name (states.map State.name).eraseDups) := by
  simp only [name, ofList, Member.listed_map_state]
  rw [namer.nameMembers_map_state, names_eraseDups]

theorem compare_equal_ofList_states (naming : List Member → Except Error String)
    (left right : List State) :
    compare .equal (ofList naming (left.map .state)) (ofList naming (right.map .state)) = true ↔
      (left.map State.name).toFinset = (right.map State.name).toFinset := by
  -- sets of states are equal when they are equal by name
  have within (states others : List State) :
      Member.within (states.eraseDups.map .state) (others.eraseDups.map .state) = true ↔
        ∀ name ∈ states.map State.name, name ∈ others.map State.name := by
    have listed (given : List State) (name : String) :
        name ∈ given.eraseDups.map State.name ↔ name ∈ given.map State.name := by
      rw [names_eraseDups, List.mem_eraseDups]
    have borne (state : State) : (∃ other ∈ others.eraseDups.map Member.state,
        (Member.state state == other) = true) ↔ state.name ∈ others.map State.name := by
      rw [← listed]
      simp only [List.mem_map, exists_exists_and_eq_and, Member.state_beq_state, State.beq_eq, beq_iff_eq]
      exact exists_congr fun other => and_congr_right fun _ => eq_comm
    simp only [Member.within_iff, List.forall_mem_map, borne]
    constructor
    · intro inside state present
      obtain ⟨kept, here, same⟩ := List.mem_map.mp ((listed states state.name).mpr
        (List.mem_map_of_mem present))
      exact same ▸ inside kept here
    · intro inside state present
      obtain ⟨given, here, same⟩ := List.mem_map.mp ((listed states state.name).mp
        (List.mem_map_of_mem present))
      exact same ▸ inside given here
  simp only [compare, Member.compareSets, ofList, Member.listed_map_state, Bool.and_eq_true, within]
  rw [Finset.ext_iff]
  simp only [List.mem_toFinset]
  exact ⟨fun both name => ⟨both.1 name, both.2 name⟩,
    fun same => ⟨fun name => (same name).mp, fun name => (same name).mpr⟩⟩

end StateSet

/-- Collections share a name when they have the same names in them, or when one is empty and the other has
the empty name only. The latter is the name of no state. -/
theorem shared_name_iff (separator : String) (opener closer : Label) (filled : separator ≠ "")
    (unescaped : separator.toList.head? ≠ some '\\') :
    ∃ namer, Namer.make separator [opener, closer] = .ok namer ∧
      (∀ left right : List Bearer, ∃ leftName rightName,
        namer.nameMembers (left.map Bearer.member) = .ok leftName ∧
        namer.nameMembers (right.map Bearer.member) = .ok rightName ∧
        (leftName = rightName ↔ Bearer.names left = Bearer.names right ∨
          (Bearer.names left = ∅ ∧ Bearer.names right = {""}) ∨
          (Bearer.names left = {""} ∧ Bearer.names right = ∅))) ∧
      ∀ left right : List State, ∃ leftName rightName,
        (StateSet.ofList namer.nameMembers (left.map .state)).name = .ok leftName ∧
        (StateSet.ofList namer.nameMembers (right.map .state)).name = .ok rightName ∧
        (leftName = rightName ↔ StateSet.compare .equal
          (StateSet.ofList namer.nameMembers (left.map .state))
          (StateSet.ofList namer.nameMembers (right.map .state)) = true) := by
  obtain ⟨namer, made⟩ := Namer.make_ok opener closer filled unescaped
  refine ⟨namer, made, fun left right => ?_, fun left right => ?_⟩
  · exact ⟨_, _, namer.nameMembers_map_bearer left, namer.nameMembers_map_bearer right,
      namer.name_eq_iff_toFinset _ _⟩
  · refine ⟨_, _, StateSet.name_ofList_states namer left, StateSet.name_ofList_states namer right, ?_⟩
    have unnamed (states : List State) : (states.map State.name).toFinset ≠ {""} := by
      intro alone
      have named : "" ∈ (states.map State.name).toFinset := alone ▸ Finset.mem_singleton_self ""
      obtain ⟨state, -, empty⟩ := List.mem_map.mp (List.mem_toFinset.mp named)
      exact state.name_ne empty
    have kept (names : List String) : names.eraseDups.toFinset = names.toFinset := by
      simp [Finset.ext_iff]
    rw [namer.name_eq_iff_toFinset, StateSet.compare_equal_ofList_states]
    simp [kept, unnamed]

theorem shared_name_iff_overlapping : (",\\," ≠ "" ∧ ",\\,".toList.head? ≠ some '\\') ∧
    ∃ namer, Namer.make ",\\," [.text "[", .null] = .ok namer ∧
      ∃ joined apart, namer.nameMembers ([.inr "a,\\,b"].map Bearer.member) = .ok joined ∧
        namer.nameMembers ([.inr "a", .inr "b"].map Bearer.member) = .ok apart ∧ joined ≠ apart := by
  -- the separator may begin again inside itself and hold backslashes
  refine ⟨by decide, ?_⟩
  obtain ⟨namer, made, told, -⟩ :=
    shared_name_iff ",\\," (.text "[") .null (by decide) (by decide)
  obtain ⟨joined, apart, joinedName, apartName, same⟩ := told [.inr "a,\\,b"] [.inr "a", .inr "b"]
  exact ⟨namer, made, joined, apart, joinedName, apartName, fun equal => absurd (same.mp equal) (by decide)⟩

end FiniteAutomata
