import FrozenHeap.Proofs.Loaded.Loading
import FrozenHeap.Proofs.Recording.Linked

namespace FrozenHeap

namespace Loaded

/-- Where a place of the layout is in memory. -/
def lift (loaded : Loaded) (place : Place) : UInt64 :=
  match loaded.region? place.region with
  | some resident => resident.live + (place.address - resident.base)
  | none => 0

/-- Where the copy of an object is in memory. -/
def addressOf (loaded : Loaded) (copies : Copies) (object : ObjectId) : UInt64 :=
  (copies[object]?.map loaded.lift).getD 0

/-- The images of a draft are resident, at addresses that are not null and do not overlap. -/
structure Situated (loaded : Loaded) (draft : Draft) : Prop where
  narrowing : loaded.narrowing = draft.narrowing
  names : loaded.names = draft.names
  placed : ∀ region resident, loaded.region? region = some resident →
    resident.region = region ∧ resident.base = (draft.image region).base ∧
      resident.words.size = (draft.image region).words.size ∧ resident.live ≠ 0
  present : ∀ region, region.first < (draft.image region).words.size →
    ∃ resident, loaded.region? region = some resident
  apart : ∀ closed opened, loaded.region? .closed = some closed →
    loaded.region? .opened = some opened →
    closed.live.toNat + closed.byteLength ≤ opened.live.toNat ∨
      opened.live.toNat + opened.byteLength ≤ closed.live.toNat

theorem spans_relocation (resident : Resident) (address : UInt64) :
    resident.relocation.spans address = decide (resident.base.toNat ≤ address.toNat ∧
      address.toNat < resident.base.toNat + resident.byteLength) := by
  have fits := resident.fits
  have length : (UInt64.ofNat resident.byteLength).toNat = resident.byteLength := by
    rw [UInt64.toNat_ofNat', Nat.mod_eq_of_lt]
    unfold Resident.byteLength
    unfold UInt64.size at fits
    omega
  unfold Resident.relocation Relocation.spans
  simp only [UInt64.le_iff_toNat_le, UInt64.lt_iff_toNat_lt, length]
  by_cases above : resident.base.toNat ≤ address.toNat
  · rw [UInt64.toNat_sub_of_le _ _ (UInt64.le_iff_toNat_le.mpr above)]
    simp only [above, decide_true, Bool.true_and, true_and, decide_eq_decide]
    omega
  · simp [above]

namespace Situated

variable {loaded : Loaded} {draft : Draft} (situated : loaded.Situated draft)
include situated

theorem toNat_lift (framed : draft.Framed) {region : Region} {resident : Resident}
    (found : loaded.region? region = some resident) {index : Nat}
    (inside : index < (draft.image region).words.size) :
    (loaded.lift (draft.placeAt region index)).toNat =
      resident.live.toNat + wordBytes * index := by
  obtain ⟨_, base, size, _⟩ := situated.placed region resident found
  have fits := resident.fits
  have near := framed.near_of_lt inside
  have place := framed.toNat_placeAt region (show wordBytes * index ≤ _ by omega)
  have distance : ((draft.placeAt region index).address - resident.base).toNat =
      wordBytes * index := by
    rw [UInt64.toNat_sub_of_le _ _ (UInt64.le_iff_toNat_le.mpr (by rw [place, base]; omega)), place,
      base]
    omega
  have here : loaded.region? (draft.placeAt region index).region = some resident := found
  unfold UInt64.size at fits
  unfold wordBytes at *
  rw [lift, here]
  simp only
  rw [UInt64.toNat_add, distance, Nat.mod_eq_of_lt (by omega)]

private theorem lift_ne_zero (framed : draft.Framed) {region : Region} {resident : Resident}
    (found : loaded.region? region = some resident) {index : Nat}
    (inside : index < (draft.image region).words.size) :
    loaded.lift (draft.placeAt region index) ≠ 0 := by
  intro zero
  have place := situated.toNat_lift framed found inside
  obtain ⟨_, _, _, nonzero⟩ := situated.placed region resident found
  rw [zero, UInt64.toNat_zero] at place
  apply nonzero
  apply UInt64.toNat.inj
  rw [UInt64.toNat_zero]
  omega

/-- A word of the layout was laid out in the region that it is said to be in. -/
theorem spanning?_placeAt (framed : draft.Framed) {region : Region} {resident : Resident}
    (found : loaded.region? region = some resident) {index : Nat}
    (inside : index < (draft.image region).words.size) :
    loaded.relocations.spanning? (draft.placeAt region index).address =
      some resident.relocation := by
  have near := framed.near_of_lt inside
  have place := framed.toNat_placeAt region (show wordBytes * index ≤ _ by omega)
  obtain ⟨_, base, size, _⟩ := situated.placed region resident found
  have spans : resident.relocation.spans (draft.placeAt region index).address = true := by
    rw [spans_relocation, decide_eq_true_eq, place, base, Resident.byteLength, size]
    unfold wordBytes
    omega
  cases region with
  | closed =>
    simp only [relocations, residents, Region.all, List.filterMap_cons, found, List.map_cons,
      Relocations.spanning?, List.find?_cons, spans]
  | opened =>
    have skipped (closed : Resident) (here : loaded.region? .closed = some closed) :
        closed.relocation.spans (draft.placeAt .opened index).address = false := by
      obtain ⟨_, first, length, _⟩ := situated.placed .closed closed here
      have within := framed.within .closed
      have closedBase := framed.base .closed
      have openedBase := framed.base .opened
      rw [spans_relocation, decide_eq_false_iff_not, place, first, Resident.byteLength, length]
      simp only [Draft.offsetOf] at closedBase openedBase
      omega
    cases here : loaded.region? .closed with
    | none =>
      simp only [relocations, residents, Region.all, List.filterMap_cons, here, found,
        List.map_cons, Relocations.spanning?, List.find?_cons, spans]
    | some closed =>
      simp only [relocations, residents, Region.all, List.filterMap_cons, here, found,
        List.map_cons, Relocations.spanning?, List.find?_cons, spans, skipped closed here]

theorem regionOf?_placeAt (framed : draft.Framed) {region : Region} {resident : Resident}
    (found : loaded.region? region = some resident) {index : Nat}
    (inside : index < (draft.image region).words.size) :
    loaded.relocations.regionOf? (draft.placeAt region index).address = some region := by
  rw [Relocations.regionOf?, situated.spanning?_placeAt framed found inside, Option.map_some]
  exact congrArg some (situated.placed region resident found).1

/-- A word of the layout is relocated to where it is in memory. -/
theorem relocate?_placeAt (framed : draft.Framed) {region : Region} {resident : Resident}
    (found : loaded.region? region = some resident) {index : Nat}
    (inside : index < (draft.image region).words.size) :
    loaded.relocations.relocate? (draft.placeAt region index).address =
      .ok (some (loaded.lift (draft.placeAt region index))) := by
  have near := framed.near_of_lt inside
  have place := framed.toNat_placeAt region (show wordBytes * index ≤ _ by omega)
  obtain ⟨_, base, _, _⟩ := situated.placed region resident found
  have moved : addWord resident.live ((draft.placeAt region index).address - resident.base) =
      .ok (loaded.lift (draft.placeAt region index)) := by
    rw [addWord_eq_ok_iff, situated.toNat_lift framed found inside, UInt64.toNat_sub_of_le _ _
      (UInt64.le_iff_toNat_le.mpr (by rw [place, base]; omega)), place, base]
    omega
  simp only [Relocations.relocate?, situated.spanning?_placeAt framed found inside,
    Resident.relocation, moved, bind, Except.bind, pure, Except.pure]

theorem find?_contains (framed : draft.Framed) {region : Region} {resident : Resident}
    (found : loaded.region? region = some resident) {index : Nat}
    (inside : index < (draft.image region).words.size) :
    loaded.residents.find? (·.contains (loaded.lift (draft.placeAt region index))) =
      some resident := by
  have place := situated.toNat_lift framed found inside
  obtain ⟨_, _, size, _⟩ := situated.placed region resident found
  have contained : resident.contains (loaded.lift (draft.placeAt region index)) = true := by
    rw [Resident.contains, Bool.and_eq_true, decide_eq_true_eq, decide_eq_true_eq,
      UInt64.le_iff_toNat_le, place, Resident.byteLength, size]
    unfold wordBytes
    omega
  cases region with
  | closed =>
    simp only [residents, Region.all, List.filterMap_cons, found, List.find?_cons, contained]
  | opened =>
    cases here : loaded.region? .closed with
    | none =>
      simp only [residents, Region.all, List.filterMap_cons, here, found, List.find?_cons,
        contained]
    | some closed =>
      have skipped : closed.contains (loaded.lift (draft.placeAt .opened index)) = false := by
        have apart := situated.apart closed resident here found
        rw [← Bool.not_eq_true, Resident.contains, Bool.and_eq_true, decide_eq_true_eq,
          decide_eq_true_eq, UInt64.le_iff_toNat_le, place]
        rw [Resident.byteLength, Resident.byteLength] at apart
        rw [Resident.byteLength]
        unfold wordBytes at *
        omega
      simp only [residents, Region.all, List.filterMap_cons, here, found, List.find?_cons,
        contained, skipped]

end Situated

/-- The images of a draft were loaded and are not fixed up yet. -/
structure Hosting (loaded : Loaded) (draft : Draft) : Prop where
  situated : loaded.Situated draft
  words : ∀ region resident, loaded.region? region = some resident →
    resident.words = (draft.image region).words
  marks : ∀ region resident, loaded.region? region = some resident →
    resident.marks = (draft.image region).marks
  fresh : ∀ region resident, loaded.region? region = some resident → resident.fixed = false

variable {loaded : Loaded} {draft : Draft} {copies : Copies} {memory : ObjectId → Option Portrait}
  {tiles : List Tile}

theorem addressOf_tile (linked : Linked draft copies memory tiles) {tile : Tile}
    (member : tile ∈ tiles) : loaded.addressOf copies tile.object =
      loaded.lift (tile.place draft) := by
  rw [addressOf, linked.tiling.place_of_mem member]
  rfl

theorem Situated.exists_region (situated : loaded.Situated draft)
    (linked : Linked draft copies memory tiles) {tile : Tile} (member : tile ∈ tiles) :
    ∃ resident, loaded.region? tile.region = some resident :=
  situated.present tile.region
    (Nat.lt_of_le_of_lt (linked.tiling.bounds member).1 (linked.tiling.start_lt member))

private theorem Situated.addressOf_ne_zero (situated : loaded.Situated draft)
    (linked : Linked draft copies memory tiles) {tile : Tile} (member : tile ∈ tiles) :
    loaded.addressOf copies tile.object ≠ 0 := by
  obtain ⟨resident, found⟩ := situated.exists_region linked member
  rw [addressOf_tile linked member]
  exact situated.lift_ne_zero linked.tiling.framed found (linked.tiling.start_lt member)

@[simp] theorem lift_fixedUp (loaded : Loaded) (place : Place) :
    loaded.fixedUp.lift place = loaded.lift place := by
  rw [lift, lift, region?_fixedUp]
  cases loaded.region? place.region <;> rfl

@[simp] theorem relocations_fixedUp (loaded : Loaded) :
    loaded.fixedUp.relocations = loaded.relocations := by
  simp only [Loaded.relocations, residents, List.map_filterMap, region?_fixedUp, Option.map_map,
    Function.comp_def, Resident.relocation_fixedUp]

theorem Situated.fixedUp (situated : loaded.Situated draft) : loaded.fixedUp.Situated draft where
  narrowing := situated.narrowing
  names := situated.names
  placed region resident found := by
    rw [region?_fixedUp, Option.map_eq_some_iff] at found
    obtain ⟨before, here, rfl⟩ := found
    obtain ⟨same, base, size, live⟩ := situated.placed region before here
    exact ⟨same, base, by rw [Resident.fixedUp, Array.size_mapIdx, size], live⟩
  present region filled := by
    obtain ⟨resident, found⟩ := situated.present region filled
    exact ⟨_, by rw [region?_fixedUp, found]; rfl⟩
  apart closed opened first second := by
    rw [region?_fixedUp, Option.map_eq_some_iff] at first second
    obtain ⟨low, here, rfl⟩ := first
    obtain ⟨high, there, rfl⟩ := second
    have apart := situated.apart low high here there
    simp only [Resident.fixedUp, Resident.byteLength, Array.size_mapIdx] at apart ⊢
    exact apart

namespace Hosting

variable (hosting : loaded.Hosting draft) (linked : Linked draft copies memory tiles)
include hosting linked

/-- The word of a slot that refers to an object stands for the address of the object's copy. -/
theorem target_ref {tile : Tile} (member : tile ∈ tiles) {slot : Nat} {target : ObjectId}
    (refers : tile.slots[slot]? = some (.ref target)) {resident : Resident}
    (found : loaded.region? tile.region = some resident) :
    resident.target loaded.narrowing loaded.relocations (tile.start + 1 + slot) =
      .ok (.ok (some (loaded.addressOf copies target))) := by
  have framed := linked.tiling.framed
  obtain ⟨inside, same⟩ := Array.getElem?_eq_some_iff.mp refers
  obtain ⟨place, known, _⟩ := linked.settled tile member target (Array.mem_of_getElem? refers)
  obtain ⟨other, there, rfl, rfl⟩ := (linked.tiling.copied target place).mp known
  obtain ⟨narrow, stored, _, live, wide, _⟩ := linked.tiling.linkWord_eq there
  have cell := (Image.cellAt?_eq_some_iff.mp ((linked.shows tile member).slots slot inside)).1
  rw [same, Slot.cell, stored, ← hosting.words _ _ found] at cell
  obtain ⟨home, lies⟩ := hosting.situated.exists_region linked there
  have moved := hosting.situated.relocate?_placeAt framed lies (linked.tiling.start_lt there)
  have small : ¬ UInt32.size ≤ narrow.toUInt64.toNat := by
    rw [UInt32.toNat_toUInt64]
    exact Nat.not_le_of_lt narrow.toNat_lt
  have nonzero : narrow.toUInt64 ≠ 0 := by
    intro zero
    have same := congrArg UInt64.toUInt32 zero
    rw [UInt32.toUInt32_toUInt64] at same
    exact live same
  simp only [Resident.target, cell, if_neg small, if_neg nonzero, UInt32.toUInt32_toUInt64,
    hosting.situated.narrowing, wide]
  rw [addressOf_tile linked there, Tile.place, moved]

theorem target_null {tile : Tile} (member : tile ∈ tiles) {slot : Nat}
    (null : tile.slots[slot]? = some .null) {resident : Resident}
    (found : loaded.region? tile.region = some resident) :
    resident.target loaded.narrowing loaded.relocations (tile.start + 1 + slot) =
      .ok (.ok none) := by
  obtain ⟨inside, same⟩ := Array.getElem?_eq_some_iff.mp null
  have cell := (Image.cellAt?_eq_some_iff.mp ((linked.shows tile member).slots slot inside)).1
  rw [same, Slot.cell, ← hosting.words _ _ found] at cell
  simp only [Resident.target, cell, UInt64.toNat_zero]
  rfl

theorem fixable : loaded.Fixable where
  placed region resident found := (hosting.situated.placed region resident found).1
  fresh := hosting.fresh
  sound region resident found index marked := by
    rw [hosting.marks region resident found] at marked
    obtain ⟨tile, member, rfl, slot, rfl, reference, value, kind⟩ := linked.isSet_iff.mp marked
    cases reference with
    | bits _ => cases kind
    | null => exact ⟨_, hosting.target_null linked member value found⟩
    | ref target => exact ⟨_, hosting.target_ref linked member value found⟩

/-- When it is fixed up, a region holds the addresses of copies where it had references. -/
theorem word_fixedUp {tile : Tile} (member : tile ∈ tiles) {resident : Resident}
    (found : loaded.region? tile.region = some resident) {slot : Nat} {held : Slot}
    (value : tile.slots[slot]? = some held) :
    (resident.fixedUp loaded.narrowing loaded.relocations).words[tile.start + 1 + slot]? =
        some (held.cell (loaded.addressOf copies)).word ∧
      (resident.fixedUp loaded.narrowing loaded.relocations).marks.isSet (tile.start + 1 + slot) =
        held.isReference := by
  obtain ⟨inside, same⟩ := Array.getElem?_eq_some_iff.mp value
  have cell := Image.cellAt?_eq_some_iff.mp ((linked.shows tile member).slots slot inside)
  rw [same, Slot.isReference_cell, ← hosting.words _ _ found, ← hosting.marks _ _ found] at cell
  refine ⟨?_, cell.2⟩
  simp only [Resident.fixedUp, Array.getElem?_mapIdx, cell.1, Option.map_some, Resident.moved,
    cell.2]
  cases held with
  | bits _ => rfl
  | null =>
    rw [Resident.move?, hosting.target_null linked member value found]
    rfl
  | ref target =>
    rw [Resident.move?, hosting.target_ref linked member value found]
    rfl

end Hosting
end Loaded

/-- What is read from a slot whose references are addresses. -/
def Slot.value (addressOf : ObjectId → UInt64) : Slot → Value
  | .bits word => .bits word
  | .null => .null
  | .ref target => .object (addressOf target)

namespace Loaded.Hosting

variable {loaded : Loaded} {draft : Draft} {copies : Copies} {memory : ObjectId → Option Portrait}
  {tiles : List Tile}

variable (hosting : loaded.Hosting draft) (linked : Linked draft copies memory tiles)
include hosting linked

private theorem header_fixedUp (few : draft.names.size ≤ UInt32.size) {tile : Tile}
    (member : tile ∈ tiles)
    {resident : Resident} (found : loaded.region? tile.region = some resident) :
    ∃ word, (resident.fixedUp loaded.narrowing loaded.relocations).words[tile.start]? = some word ∧
      headerSlots word = tile.slots.size ∧ draft.names[headerClass word]? = some tile.name := by
  obtain ⟨classIndex, named, cell⟩ := (linked.shows tile member).header
  have cell := Image.cellAt?_eq_some_iff.mp cell
  have short := (linked.shows tile member).short
  have inside := Nat.lt_of_lt_of_le (Array.getElem?_eq_some_iff.mp named).1 few
  rw [← hosting.words _ _ found, ← hosting.marks _ _ found] at cell
  refine ⟨header (UInt32.ofNat classIndex) (UInt32.ofNat tile.slots.size), ?_, ?_, ?_⟩
  · simp only [Resident.fixedUp, Array.getElem?_mapIdx, cell.1, Option.map_some, Resident.moved,
      cell.2, Bool.false_eq_true, if_false]
  · rw [headerSlots_header, UInt32.toNat_ofNat', Nat.mod_eq_of_lt short]
  · rw [headerClass_header, UInt32.toNat_ofNat', Nat.mod_eq_of_lt inside]
    exact named

private theorem values_fixedUp {tile : Tile} (member : tile ∈ tiles) {resident : Resident}
    (found : loaded.region? tile.region = some resident) :
    ((resident.fixedUp loaded.narrowing loaded.relocations).words.extract (tile.start + 1)
      (tile.start + 1 + tile.slots.size)).mapIdx (fun offset word =>
        (resident.fixedUp loaded.narrowing loaded.relocations).valueOf (tile.start + 1 + offset)
          word) = tile.slots.map (Slot.value (loaded.addressOf copies)) := by
  apply Array.ext_getElem?
  intro index
  rw [Array.getElem?_mapIdx, Array.getElem?_map]
  by_cases inside : index < tile.slots.size
  · have value := Array.getElem?_eq_getElem inside
    obtain ⟨word, marked⟩ := hosting.word_fixedUp linked member found value
    have bound := (Array.getElem?_eq_some_iff.mp word).1
    have read : ((resident.fixedUp loaded.narrowing loaded.relocations).words.extract
        (tile.start + 1) (tile.start + 1 + tile.slots.size))[index]? =
          some (tile.slots[index].cell (loaded.addressOf copies)).word := by
      rw [Array.getElem?_extract, if_pos (by omega), word]
    rw [read, value, Option.map_some, Option.map_some, Resident.valueOf, marked]
    congr 1
    cases held : tile.slots[index] with
    | bits _ => rfl
    | null => rfl
    | ref target =>
      obtain ⟨place, known, _⟩ :=
        linked.settled tile member target (held ▸ Array.getElem_mem inside)
      obtain ⟨other, there, rfl, _⟩ := (linked.tiling.copied target place).mp known
      have nonzero := hosting.situated.addressOf_ne_zero linked there
      exact (if_pos rfl).trans (if_neg nonzero)
  · have past : ((resident.fixedUp loaded.narrowing loaded.relocations).words.extract
        (tile.start + 1) (tile.start + 1 + tile.slots.size)).size ≤ index := by
      rw [Array.size_extract]
      omega
    rw [Array.getElem?_eq_none past, Array.getElem?_eq_none (Nat.le_of_not_lt inside)]
    rfl

/-- In the fixed up regions, the copy of every object is found at its address. -/
theorem objectAt?_addressOf (few : draft.names.size ≤ UInt32.size) {tile : Tile}
    (member : tile ∈ tiles) :
    loaded.fixedUp.objectAt? (loaded.addressOf copies tile.object) =
      some ⟨tile.region, loaded.addressOf copies tile.object, tile.name,
        tile.slots.map (Slot.value (loaded.addressOf copies))⟩ := by
  have framed := linked.tiling.framed
  have inside := linked.tiling.start_lt member
  have finish := (linked.tiling.bounds member).2
  obtain ⟨resident, found⟩ := hosting.situated.exists_region linked member
  have fixed : loaded.fixedUp.region? tile.region =
      some (resident.fixedUp loaded.narrowing loaded.relocations) := by
    rw [region?_fixedUp, found]
    rfl
  have spanned := hosting.situated.fixedUp.find?_contains framed fixed inside
  have address := hosting.situated.toNat_lift framed found inside
  have region : (resident.fixedUp loaded.narrowing loaded.relocations).region = tile.region :=
    (hosting.situated.placed _ _ found).1
  have live : (resident.fixedUp loaded.narrowing loaded.relocations).live = resident.live := rfl
  have ready : (resident.fixedUp loaded.narrowing loaded.relocations).fixed = true := rfl
  obtain ⟨word, header, count, named⟩ := hosting.header_fixedUp linked few member found
  have size : (resident.fixedUp loaded.narrowing loaded.relocations).words.size =
      (draft.image tile.region).words.size := by
    rw [Resident.fixedUp, Array.size_mapIdx, hosting.words _ _ found]
  have names : loaded.fixedUp.names = draft.names := hosting.situated.names
  have values := hosting.values_fixedUp linked member found
  rw [lift_fixedUp, ← Tile.place] at spanned
  rw [← Tile.place] at address
  rw [objectAt?, addressOf_tile linked member, spanned]
  simp only [Option.bind_eq_bind, Option.bind_some, Resident.objectAt?, Resident.distance, live,
    address, Nat.add_sub_cancel_left, Nat.mul_mod_right, ready, and_self, if_true,
    Nat.mul_div_cancel_left tile.start (show 0 < wordBytes by decide), header, count, size, names,
    named, values, region]
  rw [if_pos (by unfold Tile.finish at finish; omega)]
  rfl

end Loaded.Hosting
end FrozenHeap
