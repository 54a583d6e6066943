import FrozenHeap.Draft
import FrozenHeap.Proofs.Marks

namespace FrozenHeap

namespace Slot

/-- The cell of a slot whose references are stored as `refs` says. -/
def cell (refs : ObjectId → UInt64) : Slot → Cell
  | bits word => ⟨word, false⟩
  | null => ⟨0, true⟩
  | ref target => ⟨refs target, true⟩

/-- The words of references that are not known yet. -/
def blank : ObjectId → UInt64 := fun _ => 0

@[simp] theorem isReference_cell (refs : ObjectId → UInt64) (slot : Slot) :
    (slot.cell refs).isReference = slot.isReference := by
  cases slot <;> rfl

end Slot

namespace Image

/-- The word at an index with its mark. -/
def cellAt? (image : Image) (index : Nat) : Option Cell :=
  (image.words[index]?).map (⟨·, image.marks.isSet index⟩)

theorem cellAt?_eq_some_iff {image : Image} {index : Nat} {cell : Cell} :
    image.cellAt? index = some cell ↔
      image.words[index]? = some cell.word ∧ image.marks.isSet index = cell.isReference := by
  cases cell
  cases found : image.words[index]? <;> simp [cellAt?, found]

theorem cellAt?_eq_none {image : Image} {index : Nat} (past : image.words.size ≤ index) :
    image.cellAt? index = none := by
  simp [cellAt?, Array.getElem?_eq_none past]

theorem lt_of_cellAt? {image : Image} {index : Nat} {cell : Cell}
    (found : image.cellAt? index = some cell) : index < image.words.size := by
  by_cases inside : index < image.words.size
  · exact inside
  · rw [cellAt?_eq_none (Nat.le_of_not_lt inside)] at found
    cases found

/-- The marks of an image cover its words and nothing else. -/
def Covered (image : Image) : Prop := image.marks.length = image.words.size

theorem covered_truncate {image : Image} (covered : image.Covered) (size : Nat) :
    (image.truncate size).Covered := by
  unfold Covered at *
  simp only [truncate, Marks.length_truncate, covered, Array.take_eq_extract, Array.size_extract]
  omega

theorem cellAt?_truncate (image : Image) (size index : Nat) :
    (image.truncate size).cellAt? index = if index < size then image.cellAt? index else none := by
  unfold cellAt? truncate
  simp only [Marks.isSet_truncate, Array.take_eq_extract]
  by_cases below : index < size
  · have kept : (image.words.extract 0 size)[index]? = image.words[index]? := by
      rw [Array.getElem?_extract]
      split
      · simp
      · exact (Array.getElem?_eq_none (by omega)).symm
    simp [kept, below]
  · rw [Array.getElem?_eq_none (by rw [Array.size_extract]; omega), if_neg below]
    rfl

def setWord (image : Image) (index : Nat) (word : UInt64) : Image :=
  { image with words := image.words.setIfInBounds index word }

theorem cellAt?_setWord_self {image : Image} {index : Nat} {cell : Cell}
    (found : image.cellAt? index = some cell) (word : UInt64) :
    (image.setWord index word).cellAt? index = some ⟨word, cell.isReference⟩ := by
  have inside := lt_of_cellAt? found
  have marked := (cellAt?_eq_some_iff.mp found).2
  rw [cellAt?_eq_some_iff]
  exact ⟨by simp [setWord, inside], marked⟩

theorem cellAt?_setWord_of_ne (image : Image) {index other : Nat} (word : UInt64)
    (different : index ≠ other) : (image.setWord index word).cellAt? other =
      image.cellAt? other := by
  simp [cellAt?, setWord, different]

end Image

namespace Draft

private theorem length_add_if (marks : Marks) (index : Nat) (condition : Bool) :
    (if condition then marks.add index else marks).length = marks.length := by
  cases condition
  · rfl
  · exact marks.length_add index

/-- The marks that laying out slots sets, behind those that are set already. -/
private theorem isSet_foldl_add (slots : List Slot) (first skipped : Nat) (marks : Marks)
    (room : first + skipped + slots.length ≤ marks.length) (index : Nat) :
    ((slots.zipIdx skipped).foldl (fun marks (slot, index) =>
      if slot.isReference then marks.add (first + index) else marks) marks).isSet index =
      (marks.isSet index ||
        (decide (first + skipped ≤ index) &&
          (slots[index - (first + skipped)]?).any Slot.isReference)) := by
  induction slots generalizing skipped marks with
  | nil => simp
  | cons slot rest ih =>
    rw [List.length_cons] at room
    have same := length_add_if marks (first + skipped) slot.isReference
    rw [List.zipIdx_cons, List.foldl_cons]
    simp only
    rw [ih (skipped + 1) _ (by omega)]
    have here : (if slot.isReference then marks.add (first + skipped) else marks).isSet index =
        (marks.isSet index || (decide (index = first + skipped) && slot.isReference)) := by
      split
      · rename_i reference
        rw [Marks.isSet_add _ (by omega), reference, Bool.and_true, Bool.or_comm]
      · rename_i plain
        simp [plain]
    rw [here, Bool.or_assoc]
    congr 1
    by_cases before : index < first + skipped
    · simp [show ¬ first + skipped ≤ index by omega, show ¬ first + (skipped + 1) ≤ index by omega,
        show index ≠ first + skipped by omega]
    · by_cases same : index = first + skipped
      · simp [same, show ¬ skipped + 1 ≤ skipped by omega]
      · obtain ⟨far, distance⟩ : ∃ far, index - (first + skipped) = far + 1 :=
          ⟨index - (first + skipped) - 1, by omega⟩
        have step : index - (first + (skipped + 1)) = far := by omega
        simp [same, distance, step, show first + skipped ≤ index by omega,
          show first + (skipped + 1) ≤ index by omega]

private theorem length_foldl_add (slots : List (Slot × Nat)) (first : Nat) (marks : Marks) :
    (slots.foldl (fun marks (slot, index) =>
      if slot.isReference then marks.add (first + index) else marks) marks).length =
      marks.length := by
  induction slots generalizing marks with
  | nil => rfl
  | cons head rest ih =>
    rw [List.foldl_cons, ih]
    exact length_add_if _ _ _

theorem size_layOut (image : Image) (classIndex : Nat) (slots : Array Slot) :
    (layOut image classIndex slots).words.size = image.words.size + 1 + slots.size := by
  simp [layOut]

theorem covered_layOut {image : Image} (covered : image.Covered) (classIndex : Nat)
    (slots : Array Slot) : (layOut image classIndex slots).Covered := by
  unfold Image.Covered at *
  rw [size_layOut]
  simp only [layOut, length_foldl_add, Marks.length_grow, covered]
  omega

/-- Laying out an object appends its header and its slots, whose references are blank. -/
theorem cellAt?_layOut {image : Image} (covered : image.Covered) (classIndex : Nat)
    (slots : Array Slot) (index : Nat) :
    (layOut image classIndex slots).cellAt? index =
      if index < image.words.size then image.cellAt? index
      else if index = image.words.size then
        some ⟨header (UInt32.ofNat classIndex) (UInt32.ofNat slots.size), false⟩
      else (slots[index - (image.words.size + 1)]?).map (Slot.cell Slot.blank) := by
  have clear : image.words.size ≤ index → image.marks.isSet index = false := fun past =>
    image.marks.isSet_past (by rw [covered]; exact past)
  have marked := isSet_foldl_add slots.toList (image.words.size + 1) 0
    (image.marks.grow (image.words.size + 1 + slots.size))
    (by rw [Marks.length_grow, Array.length_toList]; omega) index
  simp only [Nat.add_zero, Marks.isSet_grow, Array.getElem?_toList] at marked
  unfold Image.cellAt?
  simp only [layOut, marked]
  rw [Array.getElem?_append, Array.size_push]
  by_cases before : index < image.words.size
  · have small : ¬ image.words.size + 1 ≤ index := by omega
    rw [if_pos before, if_pos (by omega), Array.getElem?_push_lt before]
    simp [small, before]
  · rw [if_neg before, clear (Nat.le_of_not_lt before)]
    by_cases here : index = image.words.size
    · simp [here, show ¬ image.words.size + 1 ≤ image.words.size by omega]
    · have behind : image.words.size + 1 ≤ index := by omega
      rw [if_neg (by omega), if_neg here, Array.getElem?_map]
      cases slots[index - (image.words.size + 1)]? with
      | none => rfl
      | some slot => cases slot <;> simp [behind, Slot.word, Slot.isReference, Slot.cell,
          Slot.blank]

end Draft
end FrozenHeap
