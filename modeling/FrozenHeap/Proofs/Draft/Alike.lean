import FrozenHeap.Proofs.Draft.Allocation
import FrozenHeap.Proofs.Parallel
import FrozenHeap.Proofs.Recording.Linking

/-! Drafts that differ in how they number class names. Their images are the same but for the headers
of objects, and whatever is done to both has the same outcome and leaves them alike. -/

namespace FrozenHeap

/-- Two words are the same, or headers that name the same class by different positions. The name is
not among those that were known. -/
inductive Renumbered (known names others : Array String) : UInt64 → UInt64 → Prop where
  | same (word : UInt64) : Renumbered known names others word word
  | header {name : String} {position place : Nat} (count : UInt32) (new : name ∉ known)
    (former : names[position]? = some name) (latter : others[place]? = some name) :
    Renumbered known names others (header (.ofNat position) count) (header (.ofNat place) count)

/-- Two images of the same words, which correspond to each other, with the same marks. -/
structure Image.Alike (corresponds : UInt64 → UInt64 → Prop) (left right : Image) : Prop where
  region : left.region = right.region
  base : left.base = right.base
  marks : left.marks = right.marks
  words : List.Forall₂ corresponds left.words.toList right.words.toList

/-- Two drafts whose images are the same but for the numbers of class names that were not known. -/
structure Draft.Alike (known : Array String) (left right : Draft) : Prop where
  narrowing : left.narrowing = right.narrowing
  capacity : left.capacity = right.capacity
  former : known.toList <+: left.names.toList
  latter : known.toList <+: right.names.toList
  image : ∀ region,
    (left.image region).Alike (Renumbered known left.names right.names) (right.image region)

namespace Draft

def Mark.size (mark : Mark) : Region → Nat
  | .closed => mark.closed
  | .opened => mark.opened

theorem size_mark (draft : Draft) (region : Region) :
    draft.mark.size region = (draft.image region).words.size := by
  cases region <;> rfl

theorem image_rollback (draft : Draft) (mark : Mark) (region : Region) :
    (draft.rollback mark).image region = (draft.image region).truncate (mark.size region) := by
  cases region <;> rfl

section Names

variable {draft : Draft} {name : String} {position : Nat}

theorem nameIndex_eq (known : draft.names.findIdx? (· == name) = some position) :
    draft.nameIndex name = (position, draft) := by
  rw [nameIndex, known]

theorem findIdx?_of_longer {names others : Array String} (longer : names.toList <+: others.toList)
    (known : names.findIdx? (· == name) = some position) :
    others.findIdx? (· == name) = some position := by
  obtain ⟨names⟩ := names
  obtain ⟨others⟩ := others
  obtain ⟨added, rfl⟩ := longer
  rw [List.findIdx?_toArray] at known ⊢
  rw [List.findIdx?_append, known]
  rfl

/-- The position that is handed out for a name is where the name is found from then on. -/
theorem findIdx?_nameIndex (draft : Draft) (name : String) :
    (draft.nameIndex name).2.names.findIdx? (· == name) = some (draft.nameIndex name).1 := by
  unfold nameIndex
  split
  · rename_i known
    exact known
  · rename_i missing
    show (draft.names.push name).findIdx? _ = some draft.names.size
    rw [Array.findIdx?_push, missing, beq_self_eq_true]
    rfl

private theorem nameIndex_rename (draft : Draft) (name : String) :
    (draft.nameIndex name).2 = { draft with names := (draft.nameIndex name).2.names } := by
  unfold nameIndex
  split <;> rfl

end Names

end Draft

namespace Image.Alike

variable {corresponds : UInt64 → UInt64 → Prop} {left right : Image}

theorem size (alike : left.Alike corresponds right) : left.words.size = right.words.size :=
  alike.words.length_eq

theorem mono {other : UInt64 → UInt64 → Prop} (alike : left.Alike corresponds right)
    (weaker : ∀ word twin, corresponds word twin → other word twin) : left.Alike other right :=
  { alike with words := alike.words.imp weaker }

theorem setWord (alike : left.Alike corresponds right) (index : Nat) {word : UInt64}
    (same : corresponds word word) :
    (left.setWord index word).Alike corresponds (right.setWord index word) := by
  refine { alike with words := ?_ }
  rw [Image.setWord, Image.setWord, Array.toList_setIfInBounds, Array.toList_setIfInBounds]
  exact forall₂_set alike.words index same

theorem truncate (alike : left.Alike corresponds right) (size : Nat) :
    (left.truncate size).Alike corresponds (right.truncate size) where
  region := alike.region
  base := alike.base
  marks := congrArg (·.truncate size) alike.marks
  words := by
    have taken := List.forall₂_take size alike.words
    simpa only [Image.truncate, Array.take_eq_extract, Array.toList_extract, List.extract,
      List.drop_zero, Nat.sub_zero] using taken

/-- Laying out the same slots behind corresponding headers. -/
theorem layOut (alike : left.Alike corresponds right) {position place : Nat} (slots : Array Slot)
    (headers : corresponds (header (.ofNat position) (.ofNat slots.size))
      (header (.ofNat place) (.ofNat slots.size)))
    (same : ∀ word, corresponds word word) :
    (Draft.layOut left position slots).Alike corresponds (Draft.layOut right place slots) where
  region := alike.region
  base := alike.base
  marks := by simp only [Draft.layOut, alike.size, alike.marks]
  words := by
    simp only [Draft.layOut, Array.toList_append, Array.toList_push]
    refine List.rel_append (List.rel_append alike.words (.cons headers .nil)) ?_
    exact List.forall₂_same.mpr fun word _ => same word

end Image.Alike

namespace Draft.Alike

variable {known : Array String} {left right : Draft}

theorem refl (draft : Draft) (old : known.toList <+: draft.names.toList) :
    draft.Alike known draft where
  narrowing := rfl
  capacity := rfl
  former := old
  latter := old
  image _ := ⟨rfl, rfl, rfl, List.forall₂_same.mpr fun word _ => .same word⟩

theorem size (alike : left.Alike known right) (region : Region) :
    (left.image region).words.size = (right.image region).words.size := (alike.image region).size

/-- A name that was known has the same position in both drafts. -/
theorem position_eq (alike : left.Alike known right) {name : String} (member : name ∈ known) :
    (left.nameIndex name).1 = (right.nameIndex name).1 := by
  cases found : known.findIdx? (· == name) with
  | none =>
    have missing := Array.findIdx?_eq_none_iff.mp found name member
    rw [beq_self_eq_true] at missing
    cases missing
  | some position =>
    rw [nameIndex_eq (findIdx?_of_longer alike.former found),
      nameIndex_eq (findIdx?_of_longer alike.latter found)]

/-- Drafts stay alike when more names are added to them. -/
theorem rename (alike : left.Alike known right) {names others : Array String}
    (longer : left.names.toList <+: names.toList) (more : right.names.toList <+: others.toList) :
    Draft.Alike known { left with names := names } { right with names := others } where
  narrowing := alike.narrowing
  capacity := alike.capacity
  former := alike.former.trans longer
  latter := alike.latter.trans more
  image region := by
    rw [image_rename, image_rename]
    refine (alike.image region).mono fun word twin here => ?_
    cases here with
    | same => exact .same word
    | header count new former latter =>
      exact .header count new ((left.extends_names longer).name former)
        ((right.extends_names more).name latter)

theorem nameIndex (alike : left.Alike known right) (name : String) :
    (left.nameIndex name).2.Alike known (right.nameIndex name).2 := by
  have longer := alike.rename (left.extends_nameIndex name).names
    (right.extends_nameIndex name).names
  rwa [← nameIndex_rename, ← nameIndex_rename] at longer

theorem header (alike : left.Alike known right) (name : String) (count : UInt32) :
    Renumbered known (left.nameIndex name).2.names (right.nameIndex name).2.names
      (header (.ofNat (left.nameIndex name).1) count)
      (header (.ofNat (right.nameIndex name).1) count) := by
  by_cases member : name ∈ known
  · rw [alike.position_eq member]
    exact .same _
  · exact .header count member (left.nameIndex_cases name).2 (right.nameIndex_cases name).2

theorem modifyImage (alike : left.Alike known right) {region : Region}
    {change switch : Image → Image}
    (here : (change (left.image region)).Alike (Renumbered known left.names right.names)
      (switch (right.image region))) :
    (left.modifyImage region change).Alike known (right.modifyImage region switch) where
  narrowing := by rw [narrowing_modifyImage, narrowing_modifyImage, alike.narrowing]
  capacity := by rw [capacity_modifyImage, capacity_modifyImage, alike.capacity]
  former := by
    rw [names_modifyImage]
    exact alike.former
  latter := by
    rw [names_modifyImage]
    exact alike.latter
  image other := by
    rw [names_modifyImage, names_modifyImage, image_modifyImage, image_modifyImage]
    split
    · exact here
    · exact alike.image other

theorem laidOut (alike : left.Alike known right) (region : Region) (name : String)
    (slots : Array Slot) :
    (left.laidOut region name slots).Alike known (right.laidOut region name slots) :=
  (alike.nameIndex name).modifyImage
    (((alike.nameIndex name).image region).layOut slots (alike.header name _) .same)

/-- Laying out has the same outcome, and the same place if there is room. -/
theorem allocate (alike : left.Alike known right) (region : Region) (name : String)
    (slots : Array Slot) :
    Agree (Draft.Alike known)
      (left.allocate region name slots) (right.allocate region name slots) := by
  unfold Draft.allocate
  simp only [alike.capacity, alike.size, (alike.image region).base]
  split
  · exact .ok ⟨rfl, alike⟩
  split
  · exact .broken
  split
  · exact .broken
  exact .ok ⟨rfl, alike.laidOut region name slots⟩

theorem patch (alike : left.Alike known right) (holder : Place) (slot : Nat)
    (target : Option Place) :
    Parallel (Draft.Alike known) (left.patch holder slot target)
      (right.patch holder slot target) := by
  have here := alike.image holder.region
  have same : wordIndex (left.image holder.region) holder.address =
      wordIndex (right.image holder.region) holder.address := by
    rw [wordIndex, wordIndex, here.base]
  rw [patch_eq, patch_eq, same, here.size, here.marks, alike.narrowing]
  refine Parallel.refl.bind fun start _ equal => ?_
  subst equal
  refine Parallel.refl.bind fun narrow _ equal => ?_
  subst equal
  refine Parallel.refl.bind fun _ _ _ => ?_
  split
  · exact .ok (alike.modifyImage (here.setWord _ (.same _)))
  · exact .broken

theorem mark_eq (alike : left.Alike known right) : left.mark = right.mark := by
  have closed := alike.size .closed
  have opened := alike.size .opened
  simp only [Draft.image] at closed opened
  rw [mark, mark, closed, opened]

theorem rollback (alike : left.Alike known right) (mark : Mark) :
    (left.rollback mark).Alike known (right.rollback mark) where
  narrowing := alike.narrowing
  capacity := alike.capacity
  former := alike.former
  latter := alike.latter
  image region := by
    rw [image_rollback, image_rollback]
    exact (alike.image region).truncate _

end Draft.Alike

end FrozenHeap
