import FrozenHeap.Proofs.Loaded.Objects
import FrozenHeap.Proofs.Recording.Truthful

namespace FrozenHeap.Loaded

variable {loaded : Loaded} {draft : Draft} {copies : Copies} {memory : ObjectId → Option Portrait}
  {tiles : List Tile}

private theorem Situated.lift_inj (situated : loaded.Situated draft) (framed : draft.Framed)
    {region other : Region} {resident another : Resident}
    (found : loaded.region? region = some resident) (there : loaded.region? other = some another)
    {index position : Nat} (inside : index < (draft.image region).words.size)
    (within : position < (draft.image other).words.size)
    (same : loaded.lift (draft.placeAt region index) = loaded.lift (draft.placeAt other position)) :
    region = other ∧ index = position := by
  have first := situated.find?_contains framed found inside
  have second := situated.find?_contains framed there within
  rw [same, second] at first
  cases first
  have equal := (situated.placed region resident found).1.symm.trans
    (situated.placed other resident there).1
  subst equal
  have left := situated.toNat_lift framed found inside
  have right := situated.toNat_lift framed there within
  rw [same, right] at left
  exact ⟨rfl, Nat.eq_of_mul_eq_mul_left (show 0 < wordBytes by decide) (by omega)⟩

/-- Different objects have their copies at different addresses. -/
theorem Situated.addressOf_inj (situated : loaded.Situated draft)
    (linked : Linked draft copies memory tiles) {tile other : Tile} (member : tile ∈ tiles)
    (there : other ∈ tiles)
    (same : loaded.addressOf copies tile.object = loaded.addressOf copies other.object) :
    tile = other := by
  obtain ⟨resident, found⟩ := situated.exists_region linked member
  obtain ⟨another, lies⟩ := situated.exists_region linked there
  rw [addressOf_tile linked member, addressOf_tile linked there] at same
  obtain ⟨region, start⟩ := situated.lift_inj linked.tiling.framed found lies
    (linked.tiling.start_lt member) (linked.tiling.start_lt there) same
  exact linked.tiling.eq_of_overlap member there region ⟨Nat.le_refl _, tile.start_lt_finish⟩
    ⟨Nat.le_of_eq start.symm, start ▸ other.start_lt_finish⟩

namespace Hosting

variable (hosting : loaded.Hosting draft) (linked : Linked draft copies memory tiles)
  (few : draft.names.size ≤ UInt32.size)
include hosting linked few

private theorem valueOf?_tells {entry : Entry} {slot : Slot}
    (tells : entry.Tells draft.narrowing copies slot) :
    loaded.fixedUp.valueOf? entry = .ok (some (slot.value (loaded.addressOf copies))) := by
  cases slot with
  | bits word =>
    rw [show entry = .primitive entry.offset word from tells]
    rfl
  | null =>
    obtain ⟨region, same⟩ := tells
    rw [same]
    rfl
  | ref root =>
    obtain ⟨place, narrow, known, narrowed, same⟩ := tells
    obtain ⟨tile, member, rfl, rfl⟩ := (linked.tiling.copied root place).mp known
    obtain ⟨other, again, live, wide, _⟩ := linked.tiling.exists_narrow member
    rw [narrowed] at again
    cases again
    have framed := linked.tiling.framed
    have inside := linked.tiling.start_lt member
    obtain ⟨resident, found⟩ := hosting.situated.exists_region linked member
    have region := hosting.situated.regionOf?_placeAt framed found inside
    have moved := hosting.situated.relocate?_placeAt framed found inside
    have read := hosting.objectAt?_addressOf linked few member
    have base : loaded.fixedUp.narrowing = draft.narrowing := hosting.situated.narrowing
    have small : narrow.toUInt64.toNat < UInt32.size := by
      rw [UInt32.toNat_toUInt64]
      exact narrow.toNat_lt
    rw [← Tile.place] at region moved
    rw [← addressOf_tile linked member] at moved
    have here : (tile.place draft).region = tile.region := rfl
    rw [same]
    simp only [valueOf?, Entry.narrow?, Entry.reference, small, if_true, UInt32.toUInt32_toUInt64,
      if_neg live, base, wide, relocations_fixedUp, region, here, moved, read, bind, Except.bind,
      pure, Except.pure, Option.map_some, Slot.value]

/-- The entries of a true page are read, all of them, as what the static fields of its
class hold. -/
theorem valuesOf?_tells {live : Live} {ofClass : ClassId} (entries : List Entry)
    (truthful : ∀ entry ∈ entries, ∃ slot, live.static? ofClass entry.offset = some slot ∧
      entry.Tells draft.narrowing copies slot) :
    ∃ values, loaded.fixedUp.valuesOf? entries = .ok (some values) ∧
      values.map (·.1) = entries.map (·.offset) ∧
      ∀ pair ∈ values, ∃ slot, live.static? ofClass pair.1 = some slot ∧
        pair.2 = slot.value (loaded.addressOf copies) := by
  induction entries with
  | nil => exact ⟨[], rfl, rfl, fun _ member => by cases member⟩
  | cons entry rest ih =>
    obtain ⟨slot, value, tells⟩ := truthful entry List.mem_cons_self
    obtain ⟨values, read, offsets, others⟩ :=
      ih fun other member => truthful other (List.mem_cons_of_mem _ member)
    refine ⟨(entry.offset, slot.value (loaded.addressOf copies)) :: values, ?_, ?_, ?_⟩
    · simp only [valuesOf?, hosting.valueOf?_tells linked few tells, read, bind, Except.bind, pure,
        Except.pure, Option.map_some]
    · rw [List.map_cons, List.map_cons, offsets]
    · intro pair member
      rcases List.mem_cons.mp member with rfl | behind
      · exact ⟨slot, value, rfl⟩
      · exact others pair behind

end Hosting
end FrozenHeap.Loaded
