import FrozenHeap.Recording
import FrozenHeap.Proofs.Draft.Growth

namespace FrozenHeap

/-- The word that a reference to an object is stored as. An object without a copy has none. -/
def linkWord (narrowing : Narrowing) (copies : Copies) (target : ObjectId) : UInt64 :=
  match copies[target]? with
  | none => 0
  | some place =>
    match narrowing.narrow place.address with
    | .ok narrow => narrow.toUInt64
    | .error _ => 0

theorem mem_linksOf {holder : Place} {slots : Array Slot} {link : Link} :
    link ∈ linksOf holder slots ↔
      link.holder = holder ∧ slots[link.slot]? = some (.ref link.target) := by
  rw [linksOf, List.mem_filterMap]
  constructor
  · rintro ⟨⟨slot, index⟩, member, noted⟩
    have present := List.mk_mem_zipIdx_iff_getElem?.mp member
    rw [Array.getElem?_toList] at present
    cases slot with
    | ref target =>
      cases noted
      exact ⟨rfl, present⟩
    | bits _ => cases noted
    | null => cases noted
  · rintro ⟨rfl, present⟩
    refine ⟨(.ref link.target, link.slot), ?_, rfl⟩
    rw [List.mk_mem_zipIdx_iff_getElem?, Array.getElem?_toList]
    exact present

namespace Draft

/-- The second draft differs from the first one in words alone. -/
structure Rewrites (before after : Draft) : Prop where
  narrowing : after.narrowing = before.narrowing
  capacity : after.capacity = before.capacity
  names : after.names = before.names
  region : ∀ region, (after.image region).region = (before.image region).region
  base : ∀ region, (after.image region).base = (before.image region).base
  size : ∀ region, (after.image region).words.size = (before.image region).words.size
  marks : ∀ region, (after.image region).marks = (before.image region).marks

namespace Rewrites

theorem refl (draft : Draft) : draft.Rewrites draft :=
  ⟨rfl, rfl, rfl, fun _ => rfl, fun _ => rfl, fun _ => rfl, fun _ => rfl⟩

theorem trans {first second third : Draft} (front : first.Rewrites second)
    (back : second.Rewrites third) : first.Rewrites third where
  narrowing := back.narrowing.trans front.narrowing
  capacity := back.capacity.trans front.capacity
  names := back.names.trans front.names
  region region := (back.region region).trans (front.region region)
  base region := (back.base region).trans (front.base region)
  size region := (back.size region).trans (front.size region)
  marks region := (back.marks region).trans (front.marks region)

theorem setWord (draft : Draft) (region : Region) (index : Nat) (word : UInt64) :
    draft.Rewrites (draft.modifyImage region (·.setWord index word)) := by
  refine ⟨narrowing_modifyImage .., capacity_modifyImage .., names_modifyImage .., ?_, ?_, ?_, ?_⟩
  all_goals
    intro other
    rw [image_modifyImage]
    split
    · rename_i same
      subst same
      simp [Image.setWord]
    · rfl

variable {before after : Draft} (rewrites : before.Rewrites after)
include rewrites

theorem placeAt (region : Region) (index : Nat) :
    after.placeAt region index = before.placeAt region index := by
  rw [Draft.placeAt, Draft.placeAt, rewrites.base]

theorem place (tile : Tile) : tile.place after = tile.place before := rewrites.placeAt _ _

theorem marked {region : Region} {index : Nat} {word : UInt64}
    (found : (before.image region).cellAt? index = some ⟨word, true⟩) :
    ∃ other, (after.image region).cellAt? index = some ⟨other, true⟩ := by
  have inside := Image.lt_of_cellAt? found
  have mark := (Image.cellAt?_eq_some_iff.mp found).2
  rw [← rewrites.size] at inside
  refine ⟨(after.image region).words[index], Image.cellAt?_eq_some_iff.mpr
    ⟨Array.getElem?_eq_getElem inside, ?_⟩⟩
  rw [rewrites.marks]
  exact mark

theorem framed (framed : before.Framed) (kept : after.closed.cellAt? 0 = some ⟨0, false⟩) :
    after.Framed where
  region region := (rewrites.region region).trans (framed.region region)
  base region := by
    rw [rewrites.base, framed.base, rewrites.narrowing]
    cases region
    · rfl
    · rw [offsetOf, offsetOf, rewrites.capacity]
  whole := rewrites.capacity ▸ framed.whole
  reach := by
    rw [rewrites.capacity, rewrites.narrowing]
    exact framed.reach
  covered region := by
    rw [Image.Covered, rewrites.marks, rewrites.size]
    exact framed.covered region
  first_le region := by
    rw [rewrites.size]
    exact framed.first_le region
  within region := by
    rw [rewrites.size, rewrites.capacity]
    exact framed.within region
  sentinel := kept

end Rewrites
end Draft

namespace Link

def index (draft : Draft) (link : Link) : Nat :=
  (link.holder.address.toNat - (draft.image link.holder.region).base.toNat) / wordBytes + 1 +
    link.slot

/-- A link is to be stored in a marked word, and its target has a place with a narrow form. -/
structure Fits (draft : Draft) (copies : Copies) (link : Link) : Prop where
  above : (draft.image link.holder.region).base.toNat ≤ link.holder.address.toNat
  marked : ∃ word,
    (draft.image link.holder.region).cellAt? (link.index draft) = some ⟨word, true⟩
  known : ∃ place narrow, copies[link.target]? = some place ∧
    draft.narrowing.narrow place.address = .ok narrow

private theorem index_rewrites {before after : Draft} (rewrites : before.Rewrites after)
    (link : Link) :
    link.index after = link.index before := by
  rw [index, index, rewrites.base]

theorem Fits.rewrites {before after : Draft} {copies : Copies} {link : Link}
    (fits : link.Fits before copies) (rewrites : before.Rewrites after) :
    link.Fits after copies where
  above := by
    rw [rewrites.base]
    exact fits.above
  marked := by
    obtain ⟨_, found⟩ := fits.marked
    rw [index_rewrites rewrites]
    exact rewrites.marked found
  known := by
    rw [rewrites.narrowing]
    exact fits.known

theorem Fits.patch {draft : Draft} {copies : Copies} {link : Link}
    (fits : link.Fits draft copies) :
    ∃ place, copies[link.target]? = some place ∧
      draft.patch link.holder link.slot (some place) =
        .ok (draft.modifyImage link.holder.region
          (·.setWord (link.index draft) (linkWord draft.narrowing copies link.target))) := by
  obtain ⟨place, narrow, known, narrowed⟩ := fits.known
  obtain ⟨word, found⟩ := fits.marked
  refine ⟨place, known, ?_⟩
  have distance : subWord link.holder.address (draft.image link.holder.region).base =
      .ok (UInt64.ofNat (link.holder.address.toNat -
        (draft.image link.holder.region).base.toNat)) := by
    have small := link.holder.address.toNat_lt
    have above := fits.above
    rw [subWord_eq_ok_iff, UInt64.toNat_ofNat', Nat.mod_eq_of_lt (by omega)]
    omega
  have start : Draft.wordIndex (draft.image link.holder.region) link.holder.address =
      .ok ((link.holder.address.toNat - (draft.image link.holder.region).base.toNat) /
        wordBytes) := by
    have small := link.holder.address.toNat_lt
    simp only [Draft.wordIndex, distance, bind, Except.bind, pure, Except.pure]
    rw [UInt64.toNat_ofNat', Nat.mod_eq_of_lt (by omega)]
  have inside := Image.lt_of_cellAt? found
  have mark := (Image.cellAt?_eq_some_iff.mp found).2
  have value : linkWord draft.narrowing copies link.target = narrow.toUInt64 := by
    simp only [linkWord, known, narrowed]
  unfold index at inside mark
  simp only [Draft.patch, start, narrowed, bind, Except.bind, pure, Except.pure, ensure, mark,
    if_true, inside, value]
  rfl

end Link

namespace Draft

/-- The words of the links refer to the copies of their targets, and no other word is changed. Links
that share a word must agree on the target. -/
structure Patched (draft after : Draft) (copies : Copies) (links : List Link) : Prop where
  rewrites : draft.Rewrites after
  untouched : ∀ region index,
    (∀ link ∈ links, ¬ (link.holder.region = region ∧ link.index draft = index)) →
      (after.image region).cellAt? index = (draft.image region).cellAt? index
  stored : ∀ link ∈ links,
    (∀ other ∈ links, other.holder.region = link.holder.region →
      other.index draft = link.index draft → other.target = link.target) →
        (after.image link.holder.region).cellAt? (link.index draft) =
          some ⟨linkWord draft.narrowing copies link.target, true⟩

theorem patchLinks_ok {copies : Copies} {links : List Link} {draft : Draft}
    (fits : ∀ link ∈ links, link.Fits draft copies) :
    ∃ after, Walk.patchLinks copies draft links = .ok after ∧ draft.Patched after copies links := by
  induction links generalizing draft with
  | nil => exact ⟨draft, rfl, .refl draft, fun _ _ _ => rfl, fun _ member => nomatch member⟩
  | cons link rest ih =>
    have here := fits link List.mem_cons_self
    obtain ⟨place, known, patched⟩ := here.patch
    have first := Rewrites.setWord draft link.holder.region (link.index draft)
      (linkWord draft.narrowing copies link.target)
    obtain ⟨after, done, ⟨rewrites, kept, stored⟩⟩ :=
      ih fun other member => (fits other (List.mem_cons_of_mem _ member)).rewrites first
    refine ⟨after, ?_, ⟨first.trans rewrites, ?_, ?_⟩⟩
    · unfold Walk.patchLinks at *
      simp only [List.foldlM_cons, known, patched, bind, Except.bind]
      exact done
    · intro region index untouched
      rw [kept region index fun other member => by
        rw [Link.index_rewrites first]
        exact untouched other (List.mem_cons_of_mem _ member)]
      have apart := untouched link List.mem_cons_self
      rw [image_modifyImage]
      split
      · rename_i same
        rw [same, Image.cellAt?_setWord_of_ne _ _ fun equal => apart ⟨same.symm, equal⟩]
      · rfl
    · intro other member agree
      have later (behind : other ∈ rest) := stored other behind fun third there region index =>
        agree third (List.mem_cons_of_mem _ there) region (by
          rw [Link.index_rewrites first, Link.index_rewrites first] at index
          exact index)
      rw [Link.index_rewrites first, first.narrowing] at later
      rcases List.mem_cons.mp member with same | behind
      · subst same
        -- A later link to the same word stores the same target again.
        by_cases again : ∃ third ∈ rest, third.holder.region = other.holder.region ∧
            third.index draft = other.index draft
        · obtain ⟨third, there, region, index⟩ := again
          have target := agree third (List.mem_cons_of_mem _ there) region index
          have last := stored third there fun fourth yonder sameRegion sameIndex => by
            rw [Link.index_rewrites first, Link.index_rewrites first, index] at sameIndex
            rw [target]
            exact agree fourth (List.mem_cons_of_mem _ yonder) (sameRegion.trans region) sameIndex
          rw [Link.index_rewrites first, first.narrowing, region, index, target] at last
          exact last
        · obtain ⟨word, found⟩ := here.marked
          rw [kept _ _ fun third there equal => again ⟨third, there, equal.1, by
            rw [← Link.index_rewrites first]
            exact equal.2⟩]
          rw [image_modifyImage, if_pos rfl, Image.cellAt?_setWord_self found]
      · exact later behind

/-- A reference is narrowed, and then stored if the word is marked and there is one. -/
theorem patch_eq (draft : Draft) (holder : Place) (slot : Nat) (target : Option Place) :
    draft.patch holder slot target = (do
      let start ← wordIndex (draft.image holder.region) holder.address
      let narrow ← target.elim (.ok 0) (draft.narrowing.narrow ·.address)
      ensure ((draft.image holder.region).marks.isSet (start + 1 + slot) = true)
      if start + 1 + slot < (draft.image holder.region).words.size then
        return draft.modifyImage holder.region (·.setWord (start + 1 + slot) narrow.toUInt64)
      else .error .outOfRange) := by
  cases target <;> rfl

/-- Storing a reference overwrites one marked word, with the narrow form of the place if
there is one. -/
theorem patch_ok {draft after : Draft} {holder : Place} {slot : Nat} {target : Option Place}
    (done : draft.patch holder slot target = .ok after) :
    ∃ start narrow, wordIndex (draft.image holder.region) holder.address = .ok start ∧
      target.elim (.ok 0) (draft.narrowing.narrow ·.address) = .ok narrow ∧
      (draft.image holder.region).marks.isSet (start + 1 + slot) = true ∧
      start + 1 + slot < (draft.image holder.region).words.size ∧
      after = draft.modifyImage holder.region (·.setWord (start + 1 + slot) narrow.toUInt64) := by
  rw [patch_eq] at done
  obtain ⟨start, here, done⟩ := bind_eq_ok_iff.mp done
  obtain ⟨narrow, narrowed, done⟩ := bind_eq_ok_iff.mp done
  obtain ⟨_, marked, done⟩ := bind_eq_ok_iff.mp done
  split at done
  · rename_i inside
    cases done
    exact ⟨start, narrow, here, narrowed, ensure_eq_ok_iff.mp marked, inside, rfl⟩
  · cases done

/-- Linking, where that is possible, changes words alone. -/
theorem rewrites_patchLinks {copies : Copies} {links : List Link} {draft after : Draft}
    (done : Walk.patchLinks copies draft links = .ok after) : draft.Rewrites after := by
  refine foldlM_preserves draft.Rewrites (fun link _ state next patched rewrites => ?_)
    (.refl draft) done
  split at patched
  · obtain ⟨_, _, _, _, _, _, rfl⟩ := patch_ok patched
    exact rewrites.trans (.setWord ..)
  · cases patched

end Draft
end FrozenHeap
