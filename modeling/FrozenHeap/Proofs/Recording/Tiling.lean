import FrozenHeap.Proofs.Recording.Linking
import FrozenHeap.Proofs.Recording.Steps
import Mathlib.Data.List.Nodup

namespace FrozenHeap

theorem mem_copies_iff {copies : Copies} {object : ObjectId} :
    object ∈ copies ↔ ∃ place, copies[object]? = some place := by
  rw [Std.ExtTreeMap.mem_iff_isSome_getElem?, Option.isSome_iff_exists]

/-- The tiles of one region, in layout order. -/
def tilesIn (region : Region) (tiles : List Tile) : List Tile :=
  tiles.filter fun tile => decide (tile.region = region)

theorem mem_tilesIn {region : Region} {tiles : List Tile} {tile : Tile} :
    tile ∈ tilesIn region tiles ↔ tile ∈ tiles ∧ tile.region = region := by
  simp [tilesIn]

/-- Each region is exactly tiled, behind its reserved words, and the tiles are the copies of the
objects that have one. -/
structure Tiling (draft : Draft) (copies : Copies) (tiles : List Tile) : Prop where
  framed : draft.Framed
  abutting : ∀ region,
    Abutting region.first (tilesIn region tiles) (draft.image region).words.size
  distinct : (tiles.map Tile.object).Nodup
  copied : ∀ object place, copies[object]? = some place ↔
    ∃ tile ∈ tiles, tile.object = object ∧ tile.place draft = place

namespace Tiling

variable {draft : Draft} {copies : Copies} {tiles : List Tile}

theorem bounds (tiling : Tiling draft copies tiles) {tile : Tile} (member : tile ∈ tiles) :
    tile.region.first ≤ tile.start ∧ tile.finish ≤ (draft.image tile.region).words.size :=
  (tiling.abutting tile.region).bounds (mem_tilesIn.mpr ⟨member, rfl⟩)

theorem start_lt (tiling : Tiling draft copies tiles) {tile : Tile} (member : tile ∈ tiles) :
    tile.start < (draft.image tile.region).words.size :=
  Nat.lt_of_lt_of_le tile.start_lt_finish (tiling.bounds member).2

theorem place_of_mem (tiling : Tiling draft copies tiles) {tile : Tile} (member : tile ∈ tiles) :
    copies[tile.object]? = some (tile.place draft) :=
  (tiling.copied _ _).mpr ⟨tile, member, rfl, rfl⟩

/-- The objects that have copies are those of the tiles. -/
theorem mem_iff (tiling : Tiling draft copies tiles) {object : ObjectId} :
    object ∈ copies ↔ ∃ tile ∈ tiles, tile.object = object := by
  rw [mem_copies_iff]
  constructor
  · rintro ⟨place, known⟩
    obtain ⟨tile, member, owner, _⟩ := (tiling.copied object place).mp known
    exact ⟨tile, member, owner⟩
  · rintro ⟨tile, member, rfl⟩
    exact ⟨_, tiling.place_of_mem member⟩

theorem eq_of_object (tiling : Tiling draft copies tiles) {tile other : Tile}
    (left : tile ∈ tiles) (right : other ∈ tiles) (same : tile.object = other.object) :
    tile = other := List.inj_on_of_nodup_map tiling.distinct left right same

theorem eq_of_overlap (tiling : Tiling draft copies tiles) {tile other : Tile} {index : Nat}
    (left : tile ∈ tiles) (right : other ∈ tiles) (region : tile.region = other.region)
    (inside : tile.start ≤ index ∧ index < tile.finish)
    (within : other.start ≤ index ∧ index < other.finish) : tile = other :=
  (tiling.abutting tile.region).eq_of_overlap (mem_tilesIn.mpr ⟨left, rfl⟩)
    (mem_tilesIn.mpr ⟨right, region.symm⟩) inside within

theorem length_lt (tiling : Tiling draft copies tiles) : tiles.length < UInt32.size := by
  have both := List.length_eq_length_filter_add (l := tiles) fun tile =>
    decide (tile.region = .closed)
  have others : (tiles.filter fun tile => !decide (tile.region = .closed)) =
      tilesIn .opened tiles := by
    apply List.filter_congr
    intro tile _
    cases tile.region <;> rfl
  have closed := (tiling.abutting .closed).length_le
  have opened := (tiling.abutting .opened).length_le
  have low := tiling.framed.size_le .closed
  have high := tiling.framed.size_le .opened
  rw [others] at both
  unfold tilesIn Region.first UInt32.size at *
  omega

/-- Different objects have their copies at different addresses. -/
theorem eq_of_address (tiling : Tiling draft copies tiles) {tile other : Tile}
    (left : tile ∈ tiles) (right : other ∈ tiles)
    (same : (tile.place draft).address = (other.place draft).address) : tile = other := by
  obtain ⟨region, start⟩ :=
    tiling.framed.placeAt_inj (tiling.start_lt left) (tiling.start_lt right) same
  exact tiling.eq_of_overlap left right region ⟨Nat.le_refl _, tile.start_lt_finish⟩
    ⟨Nat.le_of_eq start.symm, start ▸ other.start_lt_finish⟩

/-- The place of a copy has a narrow form, which resolves to it. -/
theorem exists_narrow (tiling : Tiling draft copies tiles) {tile : Tile} (member : tile ∈ tiles) :
    ∃ narrow, draft.narrowing.narrow (tile.place draft).address = .ok narrow ∧ narrow ≠ 0 ∧
      draft.narrowing.widen narrow = (tile.place draft).address ∧
      draft.resolve? narrow = .ok (some (tile.place draft)) := by
  have inside := tiling.start_lt member
  obtain ⟨narrow, narrowed, live, wide⟩ :=
    tiling.framed.exists_narrow (tiling.bounds member).1 inside
  exact ⟨narrow, narrowed, live, wide, tiling.framed.resolve?_widen inside live wide⟩

/-- A reference to an object that has a copy is stored as a narrow reference to the copy's start. -/
theorem linkWord_eq (tiling : Tiling draft copies tiles) {tile : Tile} (member : tile ∈ tiles) :
    ∃ narrow : Narrow, linkWord draft.narrowing copies tile.object = narrow.toUInt64 ∧
      draft.narrowing.narrow (tile.place draft).address = .ok narrow ∧ narrow ≠ 0 ∧
      draft.narrowing.widen narrow = (tile.place draft).address ∧
      draft.resolve? narrow = .ok (some (tile.place draft)) := by
  obtain ⟨narrow, narrowed, live, wide, resolved⟩ := tiling.exists_narrow member
  refine ⟨narrow, ?_, narrowed, live, wide, resolved⟩
  rw [linkWord, tiling.place_of_mem member]
  simp only [narrowed]

theorem empty {settings : Settings} {draft : Draft} (framed : draft.Framed)
    (started : Draft.start settings = .ok draft) : Tiling draft ∅ [] where
  framed := framed
  abutting region := by
    unfold Draft.start at started
    split at started
    · cases started
    · cases started
      cases region <;> rfl
  distinct := List.nodup_nil
  copied := by simp

theorem congr (tiling : Tiling draft copies tiles) {after : Draft} (framed : after.Framed)
    (size : ∀ region, (after.image region).words.size = (draft.image region).words.size)
    (place : ∀ tile : Tile, tile.place after = tile.place draft) : Tiling after copies tiles where
  framed := framed
  abutting region := by
    rw [size]
    exact tiling.abutting region
  distinct := tiling.distinct
  copied object found := by
    simp only [place]
    exact tiling.copied object found

/-- The copies stay those of the tiles when an object that has none gets the last tile. -/
theorem copied_insert (tiling : Tiling draft copies tiles) {after : Draft}
    (grown : draft.Extends after) (tile : Tile) (uncached : copies[tile.object]? = none)
    (object : ObjectId) (place : Place) :
    (copies.insert tile.object (tile.place after))[object]? = some place ↔
      ∃ other ∈ tiles ++ [tile], other.object = object ∧ other.place after = place := by
  have old (tile : Tile) : tile.place after = tile.place draft := grown.place tile
  rw [Std.ExtTreeMap.getElem?_insert]
  split
  · rename_i here
    obtain rfl : tile.object = object := Std.LawfulEqOrd.eq_of_compare here
    constructor
    · intro found
      cases found
      exact ⟨tile, by simp, rfl, rfl⟩
    · rintro ⟨other, member, owner, rfl⟩
      rcases List.mem_append.mp member with present | last
      · rw [← owner, tiling.place_of_mem present] at uncached
        cases uncached
      · rw [List.mem_singleton.mp last]
  · rename_i apart
    rw [tiling.copied]
    constructor
    · rintro ⟨other, member, owner, rfl⟩
      exact ⟨other, List.mem_append_left _ member, owner, old other⟩
    · rintro ⟨other, member, owner, rfl⟩
      rcases List.mem_append.mp member with present | last
      · exact ⟨other, present, owner, (old other).symm⟩
      · rw [List.mem_singleton.mp last] at owner
        exact absurd (Std.LawfulEqOrd.compare_eq_iff_eq.mpr owner) apart

theorem lay {after : Draft} {region : Region} {name : String} {slots : Array Slot} {place : Place}
    {object : ObjectId} (tiling : Tiling draft copies tiles)
    (laid : draft.allocate region name slots = .ok (.ok place, after))
    (uncached : copies[object]? = none) :
    ∃ tile : Tile, tile.object = object ∧ tile.region = region ∧ tile.name = name ∧
      tile.slots = slots ∧ place = tile.place after ∧
      Tiling after (copies.insert object place) (tiles ++ [tile]) ∧ draft.Extends after ∧
      after.Shows Slot.blank tile := by
  obtain ⟨framed, grown, same, shows, size⟩ := tiling.framed.allocate laid object
  refine ⟨_, rfl, rfl, rfl, rfl, same, ?_, grown, shows⟩
  constructor
  · exact framed
  · intro other
    have before := tiling.abutting other
    rw [size]
    unfold tilesIn at *
    rw [List.filter_append]
    split
    · rename_i here
      subst here
      simp only [List.filter_cons, decide_true, if_true, List.filter_nil]
      exact before.append (.single _)
    · rename_i apart
      simpa [Ne.symm apart] using before
  · rw [List.map_append, List.nodup_append]
    refine ⟨tiling.distinct, by simp, ?_⟩
    intro other member last listed equal
    obtain ⟨tile, present, rfl⟩ := List.mem_map.mp member
    have here := tiling.place_of_mem present
    have last : last = object := by simpa using listed
    rw [equal, last, uncached] at here
    cases here
  · rw [same]
    exact tiling.copied_insert grown ⟨object, region, _, name, slots⟩ uncached

end Tiling
end FrozenHeap
