import FrozenHeap.Proofs.Draft.Growth

namespace FrozenHeap.Draft

/-- An object does not find room in its region, or has too many slots for a header. -/
def Full (draft : Draft) (region : Region) (slots : Array Slot) : Prop :=
  draft.capacity.toNat < wordBytes * ((draft.image region).words.size + 1 + slots.size) ∨
    UInt32.size ≤ slots.size

/-- The draft behind one that an object was laid out in. -/
def laidOut (draft : Draft) (region : Region) (name : String) (slots : Array Slot) : Draft :=
  (draft.nameIndex name).2.modifyImage region (layOut · (draft.nameIndex name).1 slots)

variable {draft after : Draft} {region : Region} {name : String} {slots : Array Slot}

/-- Laying out an object that finds no room changes nothing. -/
theorem allocate_error {failure : Failure}
    (full : draft.allocate region name slots = .ok (.error failure, after)) :
    draft.Full region slots ∧ failure = .regionOverflow region draft.capacity ∧ after = draft := by
  unfold allocate at full
  simp only at full
  split at full
  · rename_i more
    cases full
    exact ⟨more, rfl, rfl⟩
  · split at full
    · cases full
    · split at full <;> cases full

/-- An object that finds room is laid out behind the last word of its region. -/
theorem allocate_ok {place : Place}
    (laid : draft.allocate region name slots = .ok (.ok place, after)) :
    ¬ draft.Full region slots ∧ place.region = region ∧
      place.address.toNat = (draft.image region).base.toNat +
        wordBytes * (draft.image region).words.size ∧
      after = draft.laidOut region name slots := by
  unfold allocate at laid
  simp only at laid
  split at laid
  · cases laid
  · rename_i room
    split at laid
    · cases laid
    · rename_i distance there
      split at laid
      · cases laid
      · rename_i address here
        cases laid
        refine ⟨room, rfl, ?_, rfl⟩
        rw [← addWord_eq_ok_iff.mp here, toWord_eq_ok_iff.mp there]

private theorem image_laidOut (other : Region) : (draft.laidOut region name slots).image other =
    if other = region then layOut (draft.image region) (draft.nameIndex name).1 slots
    else draft.image other := by
  rw [laidOut, image_modifyImage, image_nameIndex]

theorem size_laidOut (other : Region) :
    ((draft.laidOut region name slots).image other).words.size =
      (draft.image other).words.size + if other = region then slots.size + 1 else 0 := by
  rw [image_laidOut]
  split
  · rename_i same
    rw [size_layOut, same, Nat.add_assoc, Nat.add_comm 1]
  · rfl

theorem extends_laidOut (covered : ∀ region, (draft.image region).Covered) (region : Region)
    (name : String) (slots : Array Slot) :
    draft.Extends (draft.laidOut region name slots) := by
  refine (extends_nameIndex draft name).trans (extends_layOut ?_ _ slots)
  rw [image_nameIndex]
  exact covered region

theorem covered_laidOut (covered : ∀ region, (draft.image region).Covered) (other : Region) :
    ((draft.laidOut region name slots).image other).Covered := by
  rw [image_laidOut]
  split
  · exact covered_layOut (covered region) _ _
  · exact covered other

end FrozenHeap.Draft
