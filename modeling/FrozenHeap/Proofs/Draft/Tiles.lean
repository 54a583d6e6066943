import FrozenHeap.Proofs.Draft.Frame

/-! Tiles. A tile remembers an object as it was when it was laid out; the tiles of a region lie one
behind the other, and an image shows a tile if its words are the object's copy. -/

namespace FrozenHeap

/-- An object as it was when it was laid out, and the word that its copy starts at. -/
structure Tile where
  object : ObjectId
  region : Region
  start : Nat
  name : String
  slots : Array Slot

namespace Tile

def finish (tile : Tile) : Nat := tile.start + 1 + tile.slots.size

def place (draft : Draft) (tile : Tile) : Place := draft.placeAt tile.region tile.start

theorem start_lt_finish (tile : Tile) : tile.start < tile.finish := by
  unfold finish
  omega

end Tile

/-- Tiles lie one behind the other, from the first word to the last. -/
def Abutting : Nat → List Tile → Nat → Prop
  | first, [], last => first = last
  | first, tile :: rest, last => tile.start = first ∧ Abutting tile.finish rest last

namespace Abutting

theorem le {first last : Nat} {tiles : List Tile} (abutting : Abutting first tiles last) :
    first ≤ last := by
  induction tiles generalizing first with
  | nil => exact Nat.le_of_eq abutting
  | cons tile rest ih =>
    have behind := ih abutting.2
    have start := abutting.1
    have span := tile.start_lt_finish
    omega

theorem append {first middle last : Nat} {tiles others : List Tile}
    (front : Abutting first tiles middle) (back : Abutting middle others last) :
    Abutting first (tiles ++ others) last := by
  induction tiles generalizing first with
  | nil =>
    cases front
    exact back
  | cons tile rest ih => exact ⟨front.1, ih front.2⟩

theorem single (tile : Tile) : Abutting tile.start [tile] tile.finish := ⟨rfl, rfl⟩

theorem bounds {first last : Nat} {tiles : List Tile} (abutting : Abutting first tiles last)
    {tile : Tile} (member : tile ∈ tiles) : first ≤ tile.start ∧ tile.finish ≤ last := by
  induction tiles generalizing first with
  | nil => cases member
  | cons head rest ih =>
    have start := abutting.1
    have span := head.start_lt_finish
    rcases List.mem_cons.mp member with rfl | behind
    · exact ⟨Nat.le_of_eq start.symm, abutting.2.le⟩
    · have inside := ih abutting.2 behind
      exact ⟨by omega, inside.2⟩

theorem length_le {first last : Nat} {tiles : List Tile} (abutting : Abutting first tiles last) :
    first + tiles.length ≤ last := by
  induction tiles generalizing first with
  | nil => exact Nat.le_of_eq abutting
  | cons tile rest ih =>
    have behind := ih abutting.2
    have start := abutting.1
    have span := tile.start_lt_finish
    rw [List.length_cons]
    omega

theorem eq_of_overlap {first last index : Nat} {tiles : List Tile}
    (abutting : Abutting first tiles last) {tile other : Tile} (left : tile ∈ tiles)
    (right : other ∈ tiles) (inside : tile.start ≤ index ∧ index < tile.finish)
    (within : other.start ≤ index ∧ index < other.finish) : tile = other := by
  induction tiles generalizing first with
  | nil => cases left
  | cons head rest ih =>
    rcases List.mem_cons.mp left with first | behind <;>
      rcases List.mem_cons.mp right with last | after
    · rw [first, last]
    · have bounds := abutting.2.bounds after
      subst first
      omega
    · have bounds := abutting.2.bounds behind
      subst last
      omega
    · exact ih abutting.2 behind after

theorem exists_tile {first last index : Nat} {tiles : List Tile}
    (abutting : Abutting first tiles last) (above : first ≤ index) (below : index < last) :
    ∃ tile ∈ tiles, tile.start ≤ index ∧ index < tile.finish := by
  induction tiles generalizing first with
  | nil =>
    cases abutting
    omega
  | cons head rest ih =>
    have start := abutting.1
    by_cases here : index < head.finish
    · exact ⟨head, List.mem_cons_self, by omega, here⟩
    · obtain ⟨tile, member, inside⟩ := ih abutting.2 (Nat.le_of_not_lt here)
      exact ⟨tile, List.mem_cons_of_mem _ member, inside⟩

end Abutting

private theorem toNat_header (classIndex slotCount : UInt32) :
    (header classIndex slotCount).toNat = classIndex.toNat + slotCount.toNat * UInt32.size := by
  have small := classIndex.toNat_lt
  have short := slotCount.toNat_lt
  have shifted : slotCount.toNat <<< 32 % 2 ^ 64 = slotCount.toNat <<< 32 := by
    rw [Nat.shiftLeft_eq, Nat.mod_eq_of_lt (by omega)]
  rw [header, UInt64.toNat_or, UInt64.toNat_shiftLeft, UInt32.toNat_toUInt64, UInt32.toNat_toUInt64]
  simp only [UInt64.reduceToNat, Nat.reduceMod, shifted]
  rw [Nat.or_comm, ← Nat.shiftLeft_add_eq_or_of_lt (by simpa using small), Nat.shiftLeft_eq,
    Nat.add_comm]

theorem headerClass_header (classIndex slotCount : UInt32) :
    headerClass (header classIndex slotCount) = classIndex.toNat := by
  rw [headerClass, toNat_header, Nat.add_mul_mod_self_right,
    Nat.mod_eq_of_lt classIndex.toNat_lt_size]

theorem headerSlots_header (classIndex slotCount : UInt32) :
    headerSlots (header classIndex slotCount) = slotCount.toNat := by
  rw [headerSlots, toNat_header, Nat.add_mul_div_right _ _ (by decide),
    Nat.div_eq_of_lt classIndex.toNat_lt_size, Nat.zero_add]

namespace Draft

/-- A draft holds a copy at a word of a region. -/
structure Holds (draft : Draft) (region : Region) (start : Nat) (copy : Copy) : Prop where
  header : ∃ classIndex, draft.names[classIndex]? = some copy.className ∧
    (draft.image region).cellAt? start =
      some ⟨header (UInt32.ofNat classIndex) (UInt32.ofNat copy.cells.size), false⟩
  short : copy.cells.size < UInt32.size
  cells : ∀ index (inside : index < copy.cells.size),
    (draft.image region).cellAt? (start + 1 + index) = some copy.cells[index]

namespace Holds

variable {draft : Draft} {region : Region} {start : Nat} {copy : Copy}

theorem finish_le (holds : draft.Holds region start copy) :
    start + 1 + copy.cells.size ≤ (draft.image region).words.size := by
  obtain ⟨_, _, found⟩ := holds.header
  have inside := Image.lt_of_cellAt? found
  rcases Nat.eq_zero_or_pos copy.cells.size with none | some
  · omega
  · have last := Image.lt_of_cellAt? (holds.cells (copy.cells.size - 1) (by omega))
    omega

theorem readCopy (holds : draft.Holds region start copy) (few : draft.names.size ≤ UInt32.size) :
    readCopy draft.names (draft.image region) start = some copy := by
  obtain ⟨classIndex, named, found⟩ := holds.header
  have word := (Image.cellAt?_eq_some_iff.mp found).1
  have finish := holds.finish_le
  have index : (UInt32.ofNat classIndex).toNat = classIndex := by
    have inside := (Array.getElem?_eq_some_iff.mp named).1
    rw [UInt32.toNat_ofNat', Nat.mod_eq_of_lt (Nat.lt_of_lt_of_le inside few)]
  have count : (UInt32.ofNat copy.cells.size).toNat = copy.cells.size := by
    rw [UInt32.toNat_ofNat', Nat.mod_eq_of_lt holds.short]
  simp only [Draft.readCopy, word, Option.bind_eq_bind, Option.bind_some, headerSlots_header,
    headerClass_header, index, count, named, finish, if_true, Option.pure_def]
  congr 2
  apply Array.ext
  · simp only [Array.size_mapIdx, Array.size_extract]
    omega
  · intro position inside _
    simp only [Array.size_mapIdx, Array.size_extract] at inside
    have cell := Image.cellAt?_eq_some_iff.mp (holds.cells position (by omega))
    simp only [Array.getElem_mapIdx, Array.getElem_extract]
    rw [(Array.getElem?_eq_some_iff.mp cell.1).2, cell.2]

end Holds

/-- A draft holds the copy of a tile, its references stored as `refs` says. -/
structure Shows (draft : Draft) (refs : ObjectId → UInt64) (tile : Tile) : Prop where
  header : ∃ classIndex, draft.names[classIndex]? = some tile.name ∧
    (draft.image tile.region).cellAt? tile.start =
      some ⟨header (UInt32.ofNat classIndex) (UInt32.ofNat tile.slots.size), false⟩
  short : tile.slots.size < UInt32.size
  slots : ∀ index (inside : index < tile.slots.size),
    (draft.image tile.region).cellAt? (tile.start + 1 + index) = some (tile.slots[index].cell refs)

namespace Shows

variable {draft : Draft} {refs : ObjectId → UInt64} {tile : Tile}

/-- A copy stays where neither its cells nor the class names in use change. -/
theorem congr {after : Draft} (shows : draft.Shows refs tile)
    (names : ∀ (index : Nat) (name : String), draft.names[index]? = some name →
      after.names[index]? = some name)
    (cells : ∀ index, tile.start ≤ index → index < tile.finish →
      (after.image tile.region).cellAt? index = (draft.image tile.region).cellAt? index) :
    after.Shows refs tile where
  header := by
    obtain ⟨classIndex, named, found⟩ := shows.header
    exact ⟨classIndex, names _ _ named, by
      rw [cells _ (Nat.le_refl _) tile.start_lt_finish, found]⟩
  short := shows.short
  slots index inside := by
    rw [cells _ (by omega) (by unfold Tile.finish; omega), shows.slots index inside]

theorem congr_refs {others : ObjectId → UInt64} (shows : draft.Shows refs tile)
    (same : ∀ target, Slot.ref target ∈ tile.slots → others target = refs target) :
    draft.Shows others tile where
  header := shows.header
  short := shows.short
  slots index inside := by
    rw [shows.slots index inside]
    have member := Array.getElem_mem inside
    cases slot : tile.slots[index] with
    | bits _ => rfl
    | null => rfl
    | ref target =>
      rw [slot] at member
      rw [Slot.cell, Slot.cell, same target member]

theorem holds (shows : draft.Shows refs tile) :
    draft.Holds tile.region tile.start ⟨tile.name, tile.slots.map (Slot.cell refs)⟩ where
  header := by
    simp only [Array.size_map]
    exact shows.header
  short := by
    rw [Array.size_map]
    exact shows.short
  cells index inside := by
    rw [Array.getElem_map]
    exact shows.slots index (by rwa [Array.size_map] at inside)

theorem finish_le (shows : draft.Shows refs tile) :
    tile.finish ≤ (draft.image tile.region).words.size := by
  have finish := shows.holds.finish_le
  rwa [Array.size_map] at finish

theorem start_lt (shows : draft.Shows refs tile) :
    tile.start < (draft.image tile.region).words.size :=
  Nat.lt_of_lt_of_le tile.start_lt_finish shows.finish_le

/-- The object that starts at a tile is read with its class name and its cells. -/
theorem readCopy (shows : draft.Shows refs tile) (few : draft.names.size ≤ UInt32.size) :
    readCopy draft.names (draft.image tile.region) tile.start =
      some ⟨tile.name, tile.slots.map (Slot.cell refs)⟩ := shows.holds.readCopy few

theorem copyAt? (framed : draft.Framed) (shows : draft.Shows refs tile)
    (few : draft.names.size ≤ UInt32.size) :
    draft.copyAt? (tile.place draft) = .ok (some ⟨tile.name, tile.slots.map (Slot.cell refs)⟩) := by
  have inside := shows.start_lt
  have spanned := framed.contains_placeAt inside
  have index := framed.wordIndex_placeAt inside
  simp only [Draft.copyAt?, Tile.place, placeAt] at *
  simp only [spanned, index, shows.readCopy few, bind, Except.bind, if_true]
  rfl

end Shows
end Draft
end FrozenHeap
