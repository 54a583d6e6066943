import FrozenHeap.Proofs.Draft.Tiles

namespace FrozenHeap

private theorem Image.ext_cells {image other : Image} (region : image.region = other.region)
    (base : image.base = other.base) (covered : image.Covered) (within : other.Covered)
    (same : ∀ index, image.cellAt? index = other.cellAt? index) : image = other := by
  have words : image.words = other.words := by
    apply Array.ext_getElem?
    intro index
    have word := congrArg (Option.map Cell.word) (same index)
    simpa [cellAt?, Option.map_map, Function.comp_def] using word
  have marks : image.marks = other.marks := by
    apply Marks.ext_isSet
    · rw [covered, within, words]
    · intro index
      by_cases inside : index < image.words.size
      · have cell := same index
        rw [cellAt?, cellAt?, ← words, Array.getElem?_eq_getElem inside] at cell
        exact congrArg Cell.isReference (Option.some.inj cell)
      · rw [image.marks.isSet_past (by rw [covered]; omega),
          other.marks.isSet_past (by rw [within, ← words]; omega)]
  cases image
  cases other
  simp_all

namespace Draft

/-- The second draft holds what the first one holds, where it is, and perhaps more behind it. -/
structure Extends (before after : Draft) : Prop where
  narrowing : after.narrowing = before.narrowing
  capacity : after.capacity = before.capacity
  names : before.names.toList <+: after.names.toList
  region : ∀ region, (after.image region).region = (before.image region).region
  base : ∀ region, (after.image region).base = (before.image region).base
  size : ∀ region, (before.image region).words.size ≤ (after.image region).words.size
  cells : ∀ region index, index < (before.image region).words.size →
    (after.image region).cellAt? index = (before.image region).cellAt? index

namespace Extends

theorem refl (draft : Draft) : draft.Extends draft :=
  ⟨rfl, rfl, List.prefix_rfl, fun _ => rfl, fun _ => rfl, fun _ => Nat.le_refl _, fun _ _ _ => rfl⟩

theorem trans {first second third : Draft} (front : first.Extends second)
    (back : second.Extends third) : first.Extends third where
  narrowing := back.narrowing.trans front.narrowing
  capacity := back.capacity.trans front.capacity
  names := front.names.trans back.names
  region region := (back.region region).trans (front.region region)
  base region := (back.base region).trans (front.base region)
  size region := Nat.le_trans (front.size region) (back.size region)
  cells region index inside := by
    rw [back.cells region index (Nat.lt_of_lt_of_le inside (front.size region)),
      front.cells region index inside]

variable {before after : Draft} (grown : before.Extends after)
include grown

theorem name {index : Nat} {name : String} (named : before.names[index]? = some name) :
    after.names[index]? = some name := by
  obtain ⟨added, names⟩ := grown.names
  rw [← Array.getElem?_toList] at named ⊢
  rw [← names, List.getElem?_append_left (List.getElem?_eq_some_iff.mp named).1, named]

theorem placeAt (region : Region) (index : Nat) :
    after.placeAt region index = before.placeAt region index := by
  rw [Draft.placeAt, Draft.placeAt, grown.base]

theorem place (tile : Tile) : tile.place after = tile.place before := grown.placeAt _ _

theorem shows {refs : ObjectId → UInt64} {tile : Tile} (shows : before.Shows refs tile) :
    after.Shows refs tile :=
  shows.congr (fun _ _ => grown.name) fun index _ below =>
    grown.cells _ index (Nat.lt_of_lt_of_le below shows.finish_le)

/-- Cutting a draft back to what it extends leaves nothing of the growth but class names. -/
theorem rollback (covered : ∀ region, (before.image region).Covered)
    (within : ∀ region, (after.image region).Covered) :
    after.rollback before.mark = { before with names := after.names } := by
  have image (region : Region) :
      (after.image region).truncate (before.image region).words.size = before.image region := by
    refine Image.ext_cells ?_ ?_ (Image.covered_truncate (within region) _) (covered region) ?_
    · exact grown.region region
    · exact grown.base region
    intro index
    rw [Image.cellAt?_truncate]
    split
    · rename_i inside
      exact grown.cells region index inside
    · rename_i past
      exact (Image.cellAt?_eq_none (Nat.le_of_not_lt past)).symm
  have closed := image .closed
  have opened := image .opened
  have narrowing := grown.narrowing
  have capacity := grown.capacity
  simp only [Draft.image] at closed opened
  simp only [Draft.rollback, Draft.mark, closed, opened, narrowing, capacity]

end Extends

theorem image_rename (draft : Draft) (names : Array String) (region : Region) :
    Draft.image { draft with names := names } region = draft.image region := by
  cases region <;> rfl

theorem extends_names (draft : Draft) {names : Array String}
    (longer : draft.names.toList <+: names.toList) :
    draft.Extends { draft with names := names } where
  narrowing := rfl
  capacity := rfl
  names := longer
  region region := by rw [image_rename]
  base region := by rw [image_rename]
  size region := Nat.le_of_eq (by rw [image_rename draft names])
  cells region _ _ := by rw [image_rename]

theorem image_nameIndex (draft : Draft) (name : String) :
    (draft.nameIndex name).2.image = draft.image := by
  funext region
  rcases (draft.nameIndex_cases name).1 with ⟨_, same⟩ | ⟨_, same⟩
  · rw [same]
  · rw [same]
    cases region <;> rfl

theorem extends_nameIndex (draft : Draft) (name : String) :
    draft.Extends (draft.nameIndex name).2 := by
  rcases (draft.nameIndex_cases name).1 with ⟨_, same⟩ | ⟨_, same⟩
  · rw [same]
    exact .refl draft
  · rw [same]
    apply extends_names
    rw [Array.toList_push]
    exact List.prefix_append _ _

theorem extends_layOut {draft : Draft} {region : Region}
    (covered : (draft.image region).Covered) (classIndex : Nat) (slots : Array Slot) :
    draft.Extends (draft.modifyImage region (layOut · classIndex slots)) where
  narrowing := narrowing_modifyImage ..
  capacity := capacity_modifyImage ..
  names := by simp
  region other := by
    rw [image_modifyImage]
    split
    · rename_i same
      rw [same]
      rfl
    · rfl
  base other := by
    rw [image_modifyImage]
    split
    · rename_i same
      rw [same]
      rfl
    · rfl
  size other := by
    rw [image_modifyImage]
    split
    · rename_i same
      rw [same, size_layOut]
      omega
    · exact Nat.le_refl _
  cells other index inside := by
    rw [image_modifyImage]
    split
    · rename_i same
      subst same
      rw [cellAt?_layOut covered, if_pos inside]
    · rfl

private theorem size_image_layOut (draft : Draft) (region other : Region) (classIndex : Nat)
    (slots : Array Slot) :
    ((draft.modifyImage region (layOut · classIndex slots)).image other).words.size =
      if other = region then (draft.image region).words.size + 1 + slots.size
      else (draft.image other).words.size := by
  rw [image_modifyImage]
  split
  · exact size_layOut ..
  · rfl

/-- An object is laid out behind the words of its region, with its references null. -/
theorem shows_layOut {draft : Draft} {region : Region} (covered : (draft.image region).Covered)
    {classIndex : Nat} {name : String} (named : draft.names[classIndex]? = some name)
    {slots : Array Slot} (short : slots.size < UInt32.size) (object : ObjectId) :
    (draft.modifyImage region (layOut · classIndex slots)).Shows Slot.blank
      ⟨object, region, (draft.image region).words.size, name, slots⟩ := by
  constructor
  · refine ⟨classIndex, ?_, ?_⟩
    · rw [names_modifyImage]
      exact named
    · rw [image_modifyImage, if_pos rfl, cellAt?_layOut covered]
      simp
  · exact short
  · intro index inside
    simp only at inside ⊢
    rw [image_modifyImage, if_pos rfl, cellAt?_layOut covered, if_neg (by omega),
      if_neg (by omega), Nat.add_sub_cancel_left, Array.getElem?_eq_getElem inside]
    rfl

namespace Framed

/-- Growing leaves a draft framed as long as marks cover the words and there is room. -/
theorem grow {before after : Draft} (framed : before.Framed) (grown : before.Extends after)
    (covered : ∀ region, (after.image region).Covered)
    (within : ∀ region, wordBytes * (after.image region).words.size ≤ after.capacity.toNat) :
    after.Framed where
  region region := (grown.region region).trans (framed.region region)
  base region := by
    rw [grown.base, framed.base, grown.narrowing]
    cases region
    · rfl
    · rw [offsetOf, offsetOf, grown.capacity]
  whole := grown.capacity ▸ framed.whole
  reach := by
    rw [grown.capacity, grown.narrowing]
    exact framed.reach
  covered := covered
  first_le region := Nat.le_trans (framed.first_le region) (grown.size region)
  within := within
  sentinel := by
    have here := grown.cells .closed 0 (framed.first_le .closed)
    exact here.trans framed.sentinel

theorem allocate {draft after : Draft} (framed : draft.Framed) {region : Region} {name : String}
    {slots : Array Slot} {place : Place}
    (laid : draft.allocate region name slots = .ok (.ok place, after)) (object : ObjectId) :
    let tile : Tile := ⟨object, region, (draft.image region).words.size, name, slots⟩
    after.Framed ∧ draft.Extends after ∧ place = tile.place after ∧
      after.Shows Slot.blank tile ∧
      (∀ other, (after.image other).words.size =
        if other = region then tile.finish else (draft.image other).words.size) := by
  intro tile
  have named := extends_nameIndex draft name
  have image := draft.image_nameIndex name
  have covered (other : Region) : ((draft.nameIndex name).2.image other).Covered := by
    rw [image]
    exact framed.covered other
  rw [framed.allocate_eq] at laid
  split at laid
  · cases laid
  · rename_i room
    obtain ⟨here, rfl⟩ := Prod.mk.inj (Except.ok.inj laid)
    obtain rfl := Except.ok.inj here
    have grown := named.trans (extends_layOut (covered region) (draft.nameIndex name).1 slots)
    have size (other : Region) : (((draft.nameIndex name).2.modifyImage region
        (layOut · (draft.nameIndex name).1 slots)).image other).words.size =
        if other = region then tile.finish else (draft.image other).words.size := by
      rw [size_image_layOut, image]
      rfl
    refine ⟨framed.grow grown ?_ ?_, grown, (grown.place tile).symm, ?_, size⟩
    · intro other
      rw [image_modifyImage]
      split
      · exact covered_layOut (covered region) _ _
      · exact covered other
    · intro other
      rw [size, capacity_modifyImage, named.capacity]
      split
      · simp only [Tile.finish, tile] at *
        omega
      · exact framed.within other
    · have shows := shows_layOut (covered region) (draft.nameIndex_cases name).2
        (show slots.size < UInt32.size by omega) object
      rwa [image] at shows

end Framed
end Draft
end FrozenHeap
