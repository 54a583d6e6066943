import FrozenHeap.Proofs.Recording.Embedding
import FrozenHeap.Proofs.Recording.Intact

namespace FrozenHeap

/-- A cell holds what a slot holds; a reference leads to the copy of its target. -/
def Slot.Mirrored (draft : Draft) (copies : Copies) : Slot → Cell → Prop
  | .bits word, cell => cell = ⟨word, false⟩
  | .null, cell => cell = ⟨0, true⟩
  | .ref target, cell => ∃ place narrow, copies[target]? = some place ∧
      cell = ⟨narrow.toUInt64, true⟩ ∧ draft.resolve? narrow = .ok (some place)

/-- A copy has the class name and the slots of an object. -/
structure Copy.Mirrors (draft : Draft) (copies : Copies) (seen : Portrait) (copy : Copy) :
    Prop where
  className : copy.className = seen.shape.name
  size : copy.cells.size = seen.slots.size
  cells : ∀ (index : Nat) (slot : Slot) (cell : Cell), seen.slots[index]? = some slot →
    copy.cells[index]? = some cell → slot.Mirrored draft copies cell

variable {draft : Draft} {copies : Copies} {memory : ObjectId → Option Portrait}
  {tiles : List Tile} {live : Live}

namespace Linked

/-- What a slot of a tile is stored as mirrors the slot. -/
theorem mirrored (linked : Linked draft copies memory tiles) {tile : Tile} (member : tile ∈ tiles)
    {slot : Slot} (held : slot ∈ tile.slots) :
    slot.Mirrored draft copies (slot.cell (linkWord draft.narrowing copies)) := by
  cases slot with
  | bits _ => rfl
  | null => rfl
  | ref target =>
    obtain ⟨place, known, _⟩ := linked.settled tile member target held
    obtain ⟨other, there, rfl, rfl⟩ := (linked.tiling.copied target place).mp known
    obtain ⟨narrow, stored, _, _, _, resolved⟩ := linked.tiling.linkWord_eq there
    exact ⟨_, narrow, known, by rw [Slot.cell, stored], resolved⟩

/-- The copy of every object that has one mirrors the object as it is remembered. -/
theorem exists_copy (linked : Linked draft copies memory tiles)
    (few : draft.names.size ≤ UInt32.size) {object : ObjectId} {place : Place}
    (known : copies[object]? = some place) :
    ∃ seen copy, memory object = some seen ∧ draft.copyAt? place = .ok (some copy) ∧
      copy.Mirrors draft copies seen := by
  obtain ⟨tile, member, rfl, rfl⟩ := (linked.tiling.copied object place).mp known
  obtain ⟨seen, remembered, name, slots⟩ := linked.remembered tile member
  refine ⟨seen, _, remembered,
    (linked.shows tile member).copyAt? linked.tiling.framed few, name, ?_, ?_⟩
  · rw [Array.size_map, slots]
  · intro index slot cell here there
    rw [← slots] at here
    rw [Array.getElem?_map, here] at there
    cases there
    exact linked.mirrored member (Array.mem_of_getElem? here)

/-- What an object that has a copy refers to has a copy. -/
theorem mem_of_refers (linked : Linked draft copies live.portrait? tiles) {object target : ObjectId}
    (cached : object ∈ copies) (refers : live.Refers object target) : target ∈ copies := by
  obtain ⟨seen, found, held⟩ := refers
  obtain ⟨tile, member, rfl⟩ := linked.tiling.mem_iff.mp cached
  obtain ⟨other, remembered, _, slots⟩ := linked.remembered tile member
  rw [found] at remembered
  cases remembered
  obtain ⟨place, settled, _⟩ := linked.settled tile member target (slots ▸ held)
  exact mem_copies_iff.mpr ⟨place, settled⟩

theorem injective (linked : Linked draft copies memory tiles) {object other : ObjectId}
    {place : Place} (left : copies[object]? = some place) (right : copies[other]? = some place) :
    object = other := by
  obtain ⟨tile, member, rfl, here⟩ := (linked.tiling.copied object place).mp left
  obtain ⟨another, there, rfl, same⟩ := (linked.tiling.copied other place).mp right
  exact congrArg Tile.object
    (linked.tiling.eq_of_address member there (congrArg Place.address (here.trans same.symm)))

end Linked

/-- A cell that mirrors a slot agrees with it under every map that extends the copies. -/
theorem Slot.Mirrored.agrees {slot : Slot} {cell : Cell}
    (mirrored : slot.Mirrored draft copies cell)
    {image : ObjectId → Place} (follows : ∀ (object : ObjectId) (place : Place),
      copies[object]? = some place → image object = place) : slot.Agrees draft image cell := by
  cases slot with
  | bits word =>
    cases mirrored
    exact ⟨rfl, rfl⟩
  | null =>
    cases mirrored
    exact ⟨rfl, rfl⟩
  | ref target =>
    obtain ⟨place, narrow, known, rfl, resolved⟩ := mirrored
    exact ⟨rfl, narrow, rfl, by rw [follows target place known, resolved]⟩

theorem Copy.Mirrors.agrees {seen : Portrait} {copy : Copy} {place : Place}
    (mirrors : copy.Mirrors draft copies seen) (found : draft.copyAt? place = .ok (some copy))
    {image : ObjectId → Place} (follows : ∀ (object : ObjectId) (place : Place),
      copies[object]? = some place → image object = place) : draft.Agrees image seen place := by
  refine ⟨copy, found, mirrors.className, List.forall₂_iff_get.mpr ⟨by simp [mirrors.size], ?_⟩⟩
  intro index inside within
  simp only [List.get_eq_getElem, Array.getElem_toList]
  rw [Array.length_toList] at inside within
  exact (mirrors.cells index _ _ (Array.getElem?_eq_getElem inside)
    (Array.getElem?_eq_getElem within)).agrees follows

namespace Linked

theorem mem_of_reaches (linked : Linked draft copies live.portrait? tiles) {object other : ObjectId}
    (cached : object ∈ copies) (path : live.Reaches object other) : other ∈ copies := by
  induction path with
  | refl => exact cached
  | tail _ edge ih => exact linked.mem_of_refers ih edge

/-- Finished copies of a heap that did not change agree with it. -/
theorem embeds (linked : Linked draft copies live.portrait? tiles)
    (few : draft.names.size ≤ UInt32.size) {root : ObjectId} {place : Place}
    (known : copies[root]? = some place) :
    draft.Embeds live root place fun object => copies[object]?.getD place where
  start := by simp [known]
  agrees object path := by
    obtain ⟨copied, there⟩ :=
      mem_copies_iff.mp (linked.mem_of_reaches (mem_copies_iff.mpr ⟨place, known⟩) path)
    obtain ⟨seen, copy, found, read, mirrors⟩ := linked.exists_copy few there
    refine ⟨seen, found, ?_⟩
    rw [there]
    exact mirrors.agrees read fun other position here => by simp [here]

end Linked

theorem Draft.verify_ok (linked : Linked draft copies live.portrait? tiles)
    (few : draft.names.size ≤ UInt32.size) {root : ObjectId} {place : Place}
    (known : copies[root]? = some place) : draft.verify live root place = .ok (.ok ()) :=
  verify_ok_iff.mpr ⟨_, linked.embeds few known⟩

end FrozenHeap
