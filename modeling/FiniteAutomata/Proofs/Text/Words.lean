import FiniteAutomata.Label.Text
import FiniteAutomata.Proofs.Tables
import FiniteAutomata.Proofs.Text.Parts
import FiniteAutomata.Text.Sorted

set_option autoImplicit false

/-!
Labels that are words, which blanks, tabulators and line breaks set apart in a text. Labels that are words are told
apart by their bare forms, and sorting brings equal collections of them into one order.
-/

namespace FiniteAutomata

/-- A text that is not empty and holds no blank, tabulator or line break. -/
def Label.IsWord (label : Label) : Prop :=
  ∃ text, label = .text text ∧ text ≠ "" ∧ ∀ mark ∈ [' ', '\t', '\n'], Lacks mark text

namespace Label.IsWord

variable {label other : Label}

theorem text_plain (word : label.IsWord) : .text label.plain = label := by
  obtain ⟨text, rfl, -⟩ := word
  rfl

theorem plain_ne (word : label.IsWord) : label.plain ≠ "" := by
  obtain ⟨text, rfl, filled, -⟩ := word
  exact filled

theorem lacks (word : label.IsWord) {mark : Char} (special : mark ∈ [' ', '\t', '\n']) :
    Lacks mark label.plain := by
  obtain ⟨text, rfl, -, clear⟩ := word
  exact clear mark special

theorem eq_of_plain (word : label.IsWord) (otherWord : other.IsWord) (same : label.plain = other.plain) :
    label = other := by
  rw [← word.text_plain, ← otherWord.text_plain, same]

theorem eq_of_beq (word : label.IsWord) (same : (label == other) = true) : other = label := by
  obtain ⟨text, rfl, -⟩ := word
  exact (Label.text_beq_iff ..).mp same

end Label.IsWord

def Worded (labels : List Label) : Prop :=
  ∀ label ∈ labels, label.IsWord

namespace Worded

variable {left right : List Label}

theorem of_subset (worded : Worded right) (within : ∀ label ∈ left, label ∈ right) : Worded left :=
  fun label here => worded label (within label here)

theorem sorted (worded : Worded left) : Worded (sortOn Label.plain left) :=
  worded.of_subset fun _ here => (mem_sortOn ..).mp here

theorem contains_iff (worded : Worded left) (label : Label) : left.contains label = true ↔ label ∈ left := by
  rw [List.contains_iff_exists_mem_beq]
  constructor
  · rintro ⟨known, here, same⟩
    rwa [(worded known here).eq_of_beq (BEq.symm same)]
  · exact fun here => ⟨label, here, BEq.rfl⟩

theorem map_plain_inj (leftWorded : Worded left) (rightWorded : Worded right) :
    left.map Label.plain = right.map Label.plain ↔ left = right := by
  have read {labels : List Label} (worded : Worded labels) :
      (labels.map Label.plain).map Label.text = labels := by
    rw [List.map_map]
    exact (List.map_congr_left fun label here => (worded label here).text_plain).trans (List.map_id labels)
  refine ⟨fun same => ?_, congrArg _⟩
  rw [← read leftWorded, same, read rightWorded]

theorem empty_notMem (worded : Worded left) : "" ∉ left.map Label.plain := by
  intro present
  obtain ⟨label, here, empty⟩ := List.mem_map.mp present
  exact (worded label here).plain_ne empty

theorem forall_lacks (worded : Worded left) {mark : Char} (special : mark ∈ [' ', '\t', '\n']) :
    ∀ item ∈ left.map Label.plain, Lacks mark item :=
  List.forall_mem_map.mpr fun label here => (worded label here).lacks special

theorem nodup_plain (worded : Worded left) (apart : Apart left) : (left.map Label.plain).Nodup := by
  refine List.pairwise_map.mpr (apart.imp_of_mem fun {first second} here there different same => ?_)
  rw [(worded first here).eq_of_plain (worded second there) same, BEq.rfl] at different
  contradiction

/-- Words are sorted into one list, in whatever order they come. -/
theorem sortOn_eq_iff (leftWorded : Worded left) (rightWorded : Worded right) (leftApart : Apart left)
    (rightApart : Apart right) : sortOn Label.plain left = sortOn Label.plain right ↔
      ∀ label, left.contains label = right.contains label := by
  have sorted (labels : List Label) :
      (sortOn Label.plain labels).map Label.plain = sortOn id (labels.map Label.plain) :=
    (sortOn_map id Label.plain labels).symm
  constructor
  · intro same label
    rw [Bool.eq_iff_iff, leftWorded.contains_iff, rightWorded.contains_iff, ← mem_sortOn Label.plain left, same,
      mem_sortOn]
  · intro same
    have members (label : Label) : label ∈ left ↔ label ∈ right := by
      rw [← leftWorded.contains_iff, ← rightWorded.contains_iff, same]
    have shuffled : left.Perm right :=
      (List.perm_ext_iff_of_nodup leftApart.nodup rightApart.nodup).mpr members
    rw [← leftWorded.sorted.map_plain_inj rightWorded.sorted, sorted, sorted]
    exact sortOn_id_congr (shuffled.map Label.plain)

theorem getElem?_of_plain (worded : Worded left) {label : Label} (word : label.IsWord) {place : Nat}
    (found : (left.map Label.plain)[place]? = some label.plain) : left[place]? = some label := by
  obtain ⟨other, here, same⟩ := Option.map_eq_some_iff.mp ((List.getElem?_map ..).symm.trans found)
  rw [here, (worded other (List.mem_of_getElem? here)).eq_of_plain word same]

/-- The bare form of a word in a list stands at one place. -/
theorem existsUnique_place (worded : Worded left) (apart : Apart left) {label : Label} (here : label ∈ left) :
    ∃! place : Nat, (left.map Label.plain)[place]? = some label.plain := by
  obtain ⟨place, found⟩ := List.mem_iff_getElem?.mp (List.mem_map_of_mem here)
  refine ⟨place, found, fun other again => ?_⟩
  obtain ⟨within, -⟩ := List.getElem?_eq_some_iff.mp again
  exact (List.getElem?_inj within (worded.nodup_plain apart)).mp (again.trans found.symm)

end Worded

end FiniteAutomata
