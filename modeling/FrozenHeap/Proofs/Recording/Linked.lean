import FrozenHeap.Proofs.Recording.Undo

namespace FrozenHeap

/-- The tiles hold finished copies, of objects as they are remembered. -/
structure Linked (draft : Draft) (copies : Copies) (memory : ObjectId → Option Portrait)
    (tiles : List Tile) : Prop where
  tiling : Tiling draft copies tiles
  shows : ∀ tile ∈ tiles, draft.Shows (linkWord draft.narrowing copies) tile
  settled : ∀ tile ∈ tiles, ∀ target, Slot.ref target ∈ tile.slots →
    Settled tile.region copies target
  remembered : ∀ tile ∈ tiles, ∃ seen, memory tile.object = some seen ∧ tile.Depicts seen

/-- Objects that have copies are remembered as before, the others as they look now. -/
def remember (copies : Copies) (memory : ObjectId → Option Portrait) (live : Live)
    (object : ObjectId) : Option Portrait :=
  if object ∈ copies then memory object else live.portrait? object

namespace Walk.Laying

variable {live : Live} {region : Region} {before : Draft} {root : ObjectId} {old fresh : List Tile}
  {stack : List ObjectId} {walk : Walk}

/-- A link is stored in a reference slot of a tile that was laid out. -/
theorem exists_tile (laying : Laying live region before root old stack walk fresh) {link : Link}
    (member : link ∈ walk.links.toList) : ∃ tile ∈ fresh, link.holder.region = tile.region ∧
      link.holder = tile.place walk.draft ∧ link.index walk.draft = tile.start + 1 + link.slot ∧
      tile.slots[link.slot]? = some (.ref link.target) := by
  rw [laying.links] at member
  obtain ⟨tile, present, listed⟩ := List.mem_flatMap.mp member
  obtain ⟨holder, slot⟩ := mem_linksOf.mp listed
  rw [← laying.grown.place] at holder
  refine ⟨tile, present, by rw [holder]; rfl, holder, ?_, slot⟩
  have near := laying.tiling.framed.near_of_lt
    (laying.tiling.start_lt (List.mem_append_right old present))
  rw [Link.index, holder, Tile.place, laying.tiling.framed.toNat_placeAt _ (by omega),
    Draft.placeAt, Nat.add_sub_cancel_left, Nat.mul_div_cancel_left _ (by decide)]

private theorem exists_link (laying : Laying live region before root old stack walk fresh)
    {tile : Tile} (member : tile ∈ fresh) {slot : Nat} {target : ObjectId}
    (refers : tile.slots[slot]? = some (.ref target)) :
    ∃ link ∈ walk.links.toList, link.holder.region = tile.region ∧
      link.index walk.draft = tile.start + 1 + slot ∧ link.target = target := by
  have listed : ⟨tile.place before, slot, target⟩ ∈ walk.links.toList := by
    rw [laying.links]
    exact List.mem_flatMap.mpr ⟨tile, member, mem_linksOf.mpr ⟨rfl, refers⟩⟩
  refine ⟨_, listed, rfl, ?_, rfl⟩
  have near := laying.tiling.framed.near_of_lt
    (laying.tiling.start_lt (List.mem_append_right old member))
  rw [Link.index, ← laying.grown.place]
  simp only [Tile.place]
  rw [laying.tiling.framed.toNat_placeAt _ (by omega), Draft.placeAt, Nat.add_sub_cancel_left,
    Nat.mul_div_cancel_left _ (by decide)]

/-- The word of a link belongs to one slot of one tile. -/
theorem eq_of_index (laying : Laying live region before root old stack walk fresh) {link : Link}
    (member : link ∈ walk.links.toList) {tile : Tile} (present : tile ∈ old ++ fresh) {index : Nat}
    (region : link.holder.region = tile.region) (same : link.index walk.draft = index)
    (inside : tile.start ≤ index ∧ index < tile.finish) :
    tile ∈ fresh ∧ index = tile.start + 1 + link.slot ∧
      tile.slots[link.slot]? = some (.ref link.target) := by
  obtain ⟨other, there, place, _, position, slot⟩ := laying.exists_tile member
  have bound := (Array.getElem?_eq_some_iff.mp slot).1
  have equal := laying.tiling.eq_of_overlap present (List.mem_append_right old there)
    (region.symm.trans place) inside (by unfold Tile.finish; omega)
  subst equal
  exact ⟨there, same.symm.trans position, slot⟩

theorem fits (laying : Laying live region before root old [] walk fresh) {link : Link}
    (member : link ∈ walk.links.toList) : link.Fits walk.draft walk.copies := by
  obtain ⟨tile, present, _, holder, index, slot⟩ := laying.exists_tile member
  have near := laying.tiling.framed.near_of_lt
    (laying.tiling.start_lt (List.mem_append_right old present))
  obtain ⟨inside, refers⟩ := Array.getElem?_eq_some_iff.mp slot
  constructor
  · rw [holder, Tile.place, laying.tiling.framed.toNat_placeAt _ (by omega)]
    exact Nat.le_add_right _ _
  · have cell := (laying.blank tile present).slots link.slot inside
    rw [refers] at cell
    refine ⟨Slot.blank link.target, ?_⟩
    rw [index, holder]
    exact cell
  · have awaited : link.target = root ∨
        ∃ tile ∈ fresh, Slot.ref link.target ∈ tile.slots :=
      .inr ⟨tile, present, Array.mem_of_getElem? slot⟩
    rcases laying.pending link.target awaited with listed | ⟨place, known, _⟩
    · cases listed
    · obtain ⟨other, there, _, same⟩ := (laying.tiling.copied _ _).mp known
      obtain ⟨narrow, narrowed, _⟩ := laying.tiling.exists_narrow there
      exact ⟨place, narrow, known, same ▸ narrowed⟩

/-- The word of a slot that is no reference to an object is not patched. -/
theorem plain (laying : Laying live region before root old stack walk fresh) {after : Draft}
    (patched : walk.draft.Patched after walk.copies walk.links.toList) {tile : Tile}
    (member : tile ∈ old ++ fresh) {index : Nat}
    (inside : tile.start ≤ index ∧ index < tile.finish)
    (apart : tile ∈ fresh → ∀ slot, index = tile.start + 1 + slot →
      ∀ target, tile.slots[slot]? ≠ some (.ref target)) :
    (after.image tile.region).cellAt? index = (walk.draft.image tile.region).cellAt? index := by
  refine patched.untouched tile.region index fun link listed ⟨region, same⟩ => ?_
  obtain ⟨present, position, refers⟩ := laying.eq_of_index listed member region same inside
  exact apart present link.slot position link.target refers

theorem framed (laying : Laying live region before root old stack walk fresh) {after : Draft}
    (patched : walk.draft.Patched after walk.copies walk.links.toList) : after.Framed := by
  refine patched.rewrites.framed laying.tiling.framed ?_
  rw [← laying.tiling.framed.sentinel]
  refine patched.untouched .closed 0 fun link member ⟨region, index⟩ => ?_
  obtain ⟨_, _, _, _, position, _⟩ := laying.exists_tile member
  omega

theorem not_mem_fresh (laying : Laying live region before root old stack walk fresh) {tile : Tile}
    (member : tile ∈ old) : tile ∉ fresh := by
  intro again
  have distinct := laying.tiling.distinct
  rw [List.map_append] at distinct
  exact List.disjoint_of_nodup_append distinct (List.mem_map_of_mem member)
    (List.mem_map_of_mem again)

theorem finished (laying : Laying live region before root old stack walk fresh) {after : Draft}
    (patched : walk.draft.Patched after walk.copies walk.links.toList) {tile : Tile}
    (present : tile ∈ fresh) : after.Shows (linkWord after.narrowing walk.copies) tile := by
  have member : tile ∈ old ++ fresh := List.mem_append_right old present
  have shows := laying.blank tile present
  constructor
  · obtain ⟨classIndex, named, cell⟩ := shows.header
    refine ⟨classIndex, patched.rewrites.names ▸ named, ?_⟩
    rw [← cell]
    refine laying.plain patched member ⟨Nat.le_refl _, tile.start_lt_finish⟩ ?_
    intro _ slot position
    omega
  · exact shows.short
  · intro slot inside
    have within : tile.start ≤ tile.start + 1 + slot ∧ tile.start + 1 + slot < tile.finish := by
      unfold Tile.finish
      omega
    have value := Array.getElem?_eq_getElem inside
    have blank (plain : ∀ target, tile.slots[slot] ≠ .ref target) :
        (after.image tile.region).cellAt? (tile.start + 1 + slot) =
          some (tile.slots[slot].cell Slot.blank) := by
      rw [← shows.slots slot inside]
      refine laying.plain patched member within ?_
      intro _ other position target refers
      have here : other = slot := by omega
      rw [here, value] at refers
      exact plain target (Option.some.inj refers)
    cases kind : tile.slots[slot] with
    | bits word =>
      rw [blank (by simp [kind]), kind]
      rfl
    | null =>
      rw [blank (by simp [kind]), kind]
      rfl
    | ref target =>
      rw [kind] at value
      obtain ⟨link, listed, region, position, aim⟩ := laying.exists_link present value
      have cell := patched.stored link listed fun other there sameRegion sameIndex => by
        obtain ⟨_, here, refers⟩ := laying.eq_of_index there member (sameRegion.trans region)
          (sameIndex.trans position) within
        have slots : other.slot = slot := by omega
        rw [slots, value] at refers
        exact (Slot.ref.inj (Option.some.inj refers)).symm.trans aim.symm
      rw [region, position, aim] at cell
      rw [cell, Slot.cell, patched.rewrites.narrowing]

end Walk.Laying

namespace Linked

variable {draft : Draft} {copies : Copies} {memory : ObjectId → Option Portrait}
  {tiles : List Tile}

theorem empty {settings : Settings} (started : Draft.start settings = .ok draft)
    (bounded : settings.Bounded) : Linked draft ∅ memory [] where
  tiling := .empty (Draft.framed_start started bounded) started
  shows _ member := nomatch member
  settled _ member := nomatch member
  remembered _ member := nomatch member

/-- What a reference to an object is stored as depends on the object's copy alone. -/
theorem linkWord_congr {narrowing other : Narrowing} {later : Copies} {target : ObjectId}
    (narrowings : other = narrowing) (same : later[target]? = copies[target]?) :
    linkWord other later target = linkWord narrowing copies target := by
  rw [linkWord, linkWord, same, narrowings]

/-- Patching the references of a finished walk finishes its copies. -/
theorem link {live : Live} {region : Region} {root : ObjectId} {walk : Walk} {fresh : List Tile}
    (linked : Linked draft copies memory tiles)
    (laying : walk.Laying live region draft root tiles [] fresh)
    (kept : ∀ (object : ObjectId) (place : Place),
      copies[object]? = some place → walk.copies[object]? = some place) :
    ∃ after, Walk.patchLinks walk.copies walk.draft walk.links.toList = .ok after ∧
      walk.draft.Rewrites after ∧
      Linked after walk.copies (remember copies memory live) (tiles ++ fresh) := by
  obtain ⟨after, done, patched⟩ := Draft.patchLinks_ok fun link member => laying.fits member
  have rewrites := patched.rewrites
  have narrowing : after.narrowing = draft.narrowing :=
    rewrites.narrowing.trans laying.grown.narrowing
  refine ⟨after, done, rewrites, ?_⟩
  constructor
  · exact laying.tiling.congr (laying.framed patched) rewrites.size rewrites.place
  · intro tile member
    rcases List.mem_append.mp member with present | present
    · have shows := laying.grown.shows (linked.shows tile present)
      refine (shows.congr (fun _ _ named => rewrites.names ▸ named) ?_).congr_refs ?_
      · intro index above below
        refine laying.plain patched member ⟨above, below⟩ fun again => ?_
        exact absurd again (laying.not_mem_fresh present)
      · intro target refers
        obtain ⟨place, known, _⟩ := linked.settled tile present target refers
        exact linkWord_congr narrowing ((kept target place known).trans known.symm)
    · exact laying.finished patched present
  · intro tile member target refers
    rcases List.mem_append.mp member with present | present
    · obtain ⟨place, known, closed⟩ := linked.settled tile present target refers
      exact ⟨place, kept target place known, closed⟩
    · rw [laying.inside tile present]
      rcases laying.pending target (.inr ⟨tile, present, refers⟩) with listed | settled
      · cases listed
      · exact settled
  · intro tile member
    rcases List.mem_append.mp member with present | present
    · have cached := linked.tiling.mem_iff.mpr ⟨tile, present, rfl⟩
      rw [remember, if_pos cached]
      exact linked.remembered tile present
    · have uncached : tile.object ∉ copies := by
        intro cached
        obtain ⟨other, there, same⟩ := linked.tiling.mem_iff.mp cached
        have equal := laying.tiling.eq_of_object (List.mem_append_left fresh there) member same
        exact laying.not_mem_fresh there (equal ▸ present)
      rw [remember, if_neg uncached]
      exact laying.portrayed tile present

theorem rename (linked : Linked draft copies memory tiles) {names : Array String}
    (longer : draft.names.toList <+: names.toList) :
    Linked { draft with names := names } copies memory tiles := by
  have grown := draft.extends_names longer
  have image (region : Region) : Draft.image { draft with names := names } region =
      draft.image region := by
    cases region <;> rfl
  have framed : Draft.Framed { draft with names := names } := by
    refine linked.tiling.framed.grow grown (fun region => ?_) fun region => ?_
    · rw [image]
      exact linked.tiling.framed.covered region
    · rw [image]
      exact linked.tiling.framed.within region
  exact { linked with
    tiling := linked.tiling.congr framed (fun region => by rw [image]) grown.place
    shows := fun tile member => grown.shows (linked.shows tile member) }

/-- The marked words of an image are the reference slots of its tiles. -/
theorem isSet_iff (linked : Linked draft copies memory tiles) {region : Region} {index : Nat} :
    (draft.image region).marks.isSet index = true ↔
      ∃ tile ∈ tiles, tile.region = region ∧ ∃ slot : Nat, index = tile.start + 1 + slot ∧
        ∃ reference, tile.slots[slot]? = some reference ∧ reference.isReference = true := by
  have framed := linked.tiling.framed
  constructor
  · intro marked
    have inside : index < (draft.image region).words.size := by
      rw [← framed.covered region]
      exact Marks.lt_length_of_isSet marked
    have behind : region.first ≤ index := by
      cases region with
      | opened => exact Nat.zero_le _
      | closed =>
        by_cases first : index = 0
        · have clear := (Image.cellAt?_eq_some_iff.mp framed.sentinel).2
          rw [first] at marked
          exact Bool.noConfusion (clear.symm.trans marked)
        · exact Nat.pos_of_ne_zero first
    obtain ⟨tile, listed, within⟩ := (linked.tiling.abutting region).exists_tile behind inside
    obtain ⟨member, rfl⟩ := mem_tilesIn.mp listed
    have shows := linked.shows tile member
    by_cases header : index = tile.start
    · obtain ⟨_, _, cell⟩ := shows.header
      have clear := (Image.cellAt?_eq_some_iff.mp cell).2
      rw [header] at marked
      exact Bool.noConfusion (clear.symm.trans marked)
    · have slot : index - (tile.start + 1) < tile.slots.size := by
        unfold Tile.finish at within
        omega
      have here : tile.start + 1 + (index - (tile.start + 1)) = index := by omega
      have cell := (Image.cellAt?_eq_some_iff.mp (shows.slots _ slot)).2
      rw [here, marked, Slot.isReference_cell] at cell
      exact ⟨tile, member, rfl, _, here.symm, _, Array.getElem?_eq_getElem slot, cell.symm⟩
  · rintro ⟨tile, member, rfl, slot, rfl, reference, value, marked⟩
    obtain ⟨inside, same⟩ := Array.getElem?_eq_some_iff.mp value
    have cell := (linked.shows tile member).slots slot inside
    rw [(Image.cellAt?_eq_some_iff.mp cell).2, Slot.isReference_cell, same]
    exact marked

end Linked
end FrozenHeap
