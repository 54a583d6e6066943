import FrozenHeap.Proofs.Draft.Growth
import Mathlib.Data.List.Nodup

/-! Addresses of drafts. Wherever objects are laid out, their addresses have narrow forms, and what
is computed with addresses stays within 64 bits. The exception are settings whose regions reach past
the last address: validation overlooks them, as it compares sums that are cut off there. -/

namespace FrozenHeap

/-- A narrowing that spans the last address has the shift zero: its base would not lie on any
other stride. -/
theorem Narrowing.shift_eq_zero (narrowing : Narrowing)
    (spans : UInt64.size - 1 ≤
      narrowing.base.toNat + (UInt32.size - 1) * stride narrowing.shift) : narrowing.shift = 0 := by
  have fits := narrowing.fits
  have aligned := narrowing.aligned
  unfold UInt64.size UInt32.size at *
  rcases shift_cases narrowing.shift_le with zero | one | two | three
  · exact zero
  · rw [one] at fits aligned spans
    simp only [stride, Nat.reduceShiftLeft] at *
    omega
  · rw [two] at fits aligned spans
    simp only [stride, Nat.reduceShiftLeft] at *
    omega
  · rw [three] at fits aligned spans
    simp only [stride, Nat.reduceShiftLeft] at *
    omega

namespace Settings

variable {settings : Settings} {narrowing : Narrowing}

/-- The narrowing spans all addresses behind its base, and the regions need more than these. -/
structure Overlong (settings : Settings) : Prop where
  base : settings.base.toNat = UInt64.size - UInt32.size
  shift : settings.shift = 0
  capacity : UInt32.size ≤ 2 * settings.capacity.toNat

private theorem shift_of_validate (valid : settings.validate = .ok narrowing) :
    narrowing.shift = settings.shift := by
  unfold validate at valid
  split at valid
  · cases valid
  rename_i same
  split at valid
  · cases valid
  split at valid
  · cases valid
  split at valid
  · cases valid
  cases valid
  unfold Settings.narrowing Narrowing.of? at same
  split at same
  · rename_i fit
    split at fit
    · cases same
      cases fit
      rfl
    · cases fit
  · cases same

private theorem bounded_iff (valid : settings.validate = .ok narrowing) :
    settings.Bounded ↔ ¬ settings.Overlong := by
  obtain ⟨base, _, _, reached⟩ := of_validate valid
  have shift := shift_of_validate valid
  have fits := narrowing.fits
  have opened := toNat_addSaturating settings.base settings.capacity
  rw [limit, toNat_addSaturating, baseOf, opened, narrowing.toNat_top] at reached
  constructor
  · intro bounded overlong
    have start := overlong.base
    have long := overlong.capacity
    unfold Bounded at bounded
    unfold UInt64.size UInt32.size at *
    omega
  · intro short
    refine Decidable.byContradiction fun unbounded => ?_
    unfold Bounded at unbounded
    have spans : UInt64.size - 1 ≤
        narrowing.base.toNat + (UInt32.size - 1) * stride narrowing.shift := by omega
    have zero := narrowing.shift_eq_zero spans
    rw [zero] at spans fits
    rw [base] at spans fits
    simp only [stride, Nat.shiftLeft_zero, Nat.mul_one] at spans fits
    refine short ⟨?_, shift ▸ zero, ?_⟩
    · unfold UInt64.size UInt32.size at *
      omega
    · unfold UInt64.size UInt32.size at *
      omega

end Settings

/-- An object that is to be laid out. -/
structure Parcel where
  region : Region
  name : String
  slots : Array Slot

namespace Draft

/-- Lay out objects one after the other, and list those that found room with their places. -/
def layAll (draft : Draft) : List Parcel → Run (List (Parcel × Place) × Draft)
  | [] => .ok ([], draft)
  | parcel :: rest => do
    match ← draft.allocate parcel.region parcel.name parcel.slots with
    | (.error _, after) => after.layAll rest
    | (.ok place, after) => do
      let (laid, last) ← after.layAll rest
      return ((parcel, place) :: laid, last)

/-- The addresses of a draft with these objects are sound. -/
structure Addresses (settings : Settings) (laid : List (Parcel × Place)) (draft : Draft) :
    Prop where
  /-- Every question about an address has an answer. -/
  contains : ∀ region address, ∃ answer, (draft.image region).contains address = .ok answer
  copyAt? : ∀ place, ∃ answer, draft.copyAt? place = .ok answer
  resolve? : ∀ narrow, ∃ answer, draft.resolve? narrow = .ok answer
  /-- The regions do not overlap, and end where the address space ends or before. -/
  apart : (settings.baseOf .closed).toNat + settings.capacity.toNat ≤
    (settings.baseOf .opened).toNat
  ends : (settings.baseOf .opened).toNat + settings.capacity.toNat ≤ UInt64.size
  /-- Each object lies in its region. -/
  inside : ∀ parcel place, (parcel, place) ∈ laid → place.region = parcel.region ∧
    (settings.baseOf parcel.region).toNat ≤ place.address.toNat ∧
    place.address.toNat + wordBytes * (1 + parcel.slots.size) ≤
      (settings.baseOf parcel.region).toNat + settings.capacity.toNat
  /-- The place of each object has a narrow form, which is not null and leads back to it. -/
  narrows : ∀ parcel place, (parcel, place) ∈ laid → ∃ narrow,
    draft.narrowing.narrow place.address = .ok narrow ∧ narrow ≠ 0 ∧
      draft.resolve? narrow = .ok (some place)
  distinct : (laid.map fun entry => draft.narrowing.narrow entry.2.address).Nodup

namespace Framed

variable {draft : Draft}

theorem exists_copyAt? (framed : draft.Framed) (place : Place) :
    ∃ answer, draft.copyAt? place = .ok answer := by
  have contains := framed.contains_eq place.region place.address
  simp only [Draft.copyAt?, contains]
  by_cases spans : (draft.image place.region).base.toNat ≤ place.address.toNat ∧
      place.address.toNat < (draft.image place.region).base.toNat +
        wordBytes * (draft.image place.region).words.size
  · have below := UInt64.le_iff_toNat_le.mpr spans.1
    simp [spans, wordIndex, subWord, below, bind, Except.bind, pure, Except.pure]
  · simp [spans, bind, Except.bind, pure, Except.pure]

theorem exists_resolve? (framed : draft.Framed) (narrow : Narrow) :
    ∃ answer, draft.resolve? narrow = .ok answer := by
  have closed := framed.contains_eq .closed (draft.narrowing.widen narrow)
  have opened := framed.contains_eq .opened (draft.narrowing.widen narrow)
  simp only [image] at closed opened
  unfold Draft.resolve?
  split
  · exact ⟨none, rfl⟩
  · simp only [closed, opened, bind, Except.bind, pure, Except.pure]
    split
    · exact ⟨_, rfl⟩
    · split <;> exact ⟨_, rfl⟩

/-- Laying out objects has a result. Each of them starts behind the words that were there before, at
a place that no other one has. -/
theorem exists_layAll (parcels : List Parcel) (framed : draft.Framed) :
    ∃ laid last, draft.layAll parcels = .ok (laid, last) ∧ last.Framed ∧ draft.Extends last ∧
      (∀ parcel place, (parcel, place) ∈ laid → ∃ start,
        place = last.placeAt parcel.region start ∧
        (draft.image parcel.region).words.size ≤ start ∧
        start + 1 + parcel.slots.size ≤ (last.image parcel.region).words.size) ∧
      (laid.map fun entry => entry.2.address).Nodup := by
  induction parcels generalizing draft with
  | nil => exact ⟨[], draft, rfl, framed, .refl draft, by simp, by simp⟩
  | cons parcel rest ih =>
    cases done : draft.allocate parcel.region parcel.name parcel.slots with
    | error breach =>
      rw [framed.allocate_eq] at done
      split at done <;> cases done
    | ok result =>
      obtain ⟨outcome, after⟩ := result
      cases outcome with
      | error failure =>
        have same : after = draft := by
          rw [framed.allocate_eq] at done
          split at done <;> cases done
          rfl
        subst same
        obtain ⟨laid, last, run, rest⟩ := ih framed
        exact ⟨laid, last, by simp only [layAll, done, bind, Except.bind]; exact run, rest⟩
      | ok place =>
        obtain ⟨later, grown, here, _, size⟩ := framed.allocate done default
        obtain ⟨laid, last, run, finally_, extends_, within, distinct⟩ := ih later
        have start : place = last.placeAt parcel.region (draft.image parcel.region).words.size := by
          rw [extends_.placeAt]
          exact here
        have room : (draft.image parcel.region).words.size + 1 + parcel.slots.size ≤
            (after.image parcel.region).words.size := by
          rw [size, if_pos rfl]
          exact Nat.le_refl _
        have kept := extends_.size parcel.region
        refine ⟨(parcel, place) :: laid, last, ?_, finally_, grown.trans extends_, ?_, ?_⟩
        · simp only [layAll, done, bind, Except.bind, run]
          rfl
        · intro other there member
          rcases List.mem_cons.mp member with first | behind
          · cases first
            exact ⟨_, start, Nat.le_refl _, by omega⟩
          · obtain ⟨position, same, above, below⟩ := within other there behind
            exact ⟨position, same, Nat.le_trans (grown.size _) above, below⟩
        · rw [List.map_cons, List.nodup_cons]
          refine ⟨fun again => ?_, distinct⟩
          obtain ⟨⟨other, there⟩, behind, same⟩ := List.mem_map.mp again
          obtain ⟨position, equal, above, below⟩ := within other there behind
          rw [start, equal] at same
          obtain ⟨region, index⟩ := finally_.placeAt_inj (by omega) (by omega) same
          rw [region] at above
          omega

end Framed

variable {settings : Settings} {draft : Draft}

private theorem addresses_of_bounded (started : start settings = .ok draft)
    (bounded : settings.Bounded) (parcels : List Parcel) :
    ∃ laid last, draft.layAll parcels = .ok (laid, last) ∧ last.Addresses settings laid := by
  obtain ⟨_, capacity, bases⟩ := validate_of_start started
  have framed := framed_start started bounded
  obtain ⟨laid, last, run, later, grown, within, distinct⟩ := framed.exists_layAll parcels
  have base (region : Region) :
      (last.image region).base.toNat = (settings.baseOf region).toNat := by
    rw [grown.base, bases]
  have opened := Settings.toNat_baseOf_opened bounded
  have narrows : ∀ parcel place, (parcel, place) ∈ laid → ∃ narrow,
      last.narrowing.narrow place.address = .ok narrow ∧ narrow ≠ 0 ∧
        last.narrowing.widen narrow = place.address ∧
        last.resolve? narrow = .ok (some place) := by
    intro parcel place member
    obtain ⟨start, rfl, above, below⟩ := within parcel place member
    have first := framed.first_le parcel.region
    obtain ⟨narrow, narrowed, live, wide⟩ :=
      later.exists_narrow (show parcel.region.first ≤ start by omega)
        (show start < (last.image parcel.region).words.size by omega)
    exact ⟨narrow, narrowed, live, wide, later.resolve?_widen (by omega) live wide⟩
  refine ⟨laid, last, run, ?_⟩
  constructor
  · exact fun region address => ⟨_, later.contains_eq region address⟩
  · exact later.exists_copyAt?
  · exact later.exists_resolve?
  · exact Nat.le_of_eq opened.symm
  · unfold Settings.Bounded at bounded
    omega
  · intro parcel place member
    obtain ⟨start, rfl, _, below⟩ := within parcel place member
    have room := later.within parcel.region
    rw [grown.capacity, capacity] at room
    have near : wordBytes * start ≤ last.capacity.toNat := by
      rw [grown.capacity, capacity]
      unfold wordBytes at *
      omega
    rw [later.toNat_placeAt _ near, base]
    refine ⟨rfl, by omega, ?_⟩
    unfold wordBytes at *
    omega
  · intro parcel place member
    obtain ⟨narrow, narrowed, live, _, resolved⟩ := narrows parcel place member
    exact ⟨narrow, narrowed, live, resolved⟩
  · refine List.Nodup.map_on ?_ (List.Nodup.of_map _ distinct)
    rintro ⟨parcel, place⟩ member ⟨other, there⟩ present same
    obtain ⟨narrow, narrowed, _, wide, _⟩ := narrows parcel place member
    obtain ⟨another, found, _, leads, _⟩ := narrows other there present
    simp only [narrowed, found, Except.ok.injEq] at same
    refine List.inj_on_of_nodup_map distinct member present ?_
    simp only
    rw [← wide, ← leads, same]

/-- Where the opened region is as long as it can be, it can be filled up to the last address, and
then its end cannot be computed. -/
theorem exists_contains_error (started : start settings = .ok draft)
    (last : (settings.baseOf .opened).toNat + settings.capacity.toNat = UInt64.size)
    (even : wordBytes ∣ settings.capacity.toNat) (positive : 0 < settings.capacity.toNat)
    (few : settings.capacity.toNat ≤ UInt32.size) :
    ∃ parcels laid full, draft.layAll parcels = .ok (laid, full) ∧
      (full.image .opened).contains (settings.baseOf .opened) = .error .overflow := by
  obtain ⟨_, capacity, bases⟩ := validate_of_start started
  obtain ⟨words, total⟩ := even
  have empty : (draft.image .opened).words.size = 0 := by
    unfold start at started
    split at started
    · cases started
    · cases started
      rfl
  obtain ⟨slots, count⟩ : ∃ slots : Array Slot, slots.size + 1 = words := by
    refine ⟨Array.replicate (words - 1) .null, ?_⟩
    rw [Array.size_replicate]
    unfold wordBytes at total
    omega
  have room : ¬ (draft.capacity.toNat < wordBytes * (0 + 1 + slots.size) ∨
      UInt32.size ≤ slots.size) := by
    rw [capacity, total, show 0 + 1 + slots.size = words by omega]
    unfold wordBytes at *
    omega
  have address : addWord (draft.image .opened).base 0 = .ok (settings.baseOf .opened) := by
    rw [addWord_eq_ok_iff, bases]
    rfl
  have laid : draft.allocate .opened "" slots = .ok (.ok ⟨.opened, settings.baseOf .opened⟩,
      (draft.nameIndex "").2.modifyImage .opened (layOut · (draft.nameIndex "").1 slots)) := by
    simp only [allocate, empty, if_neg room, Nat.mul_zero, show toWord 0 = .ok 0 from rfl, address]
  refine ⟨[⟨.opened, "", slots⟩], _, _, by simp only [layAll, laid, bind, Except.bind]; rfl, ?_⟩
  rw [image_modifyImage, if_pos rfl, image_nameIndex]
  have size : (layOut (draft.image .opened) (draft.nameIndex "").1 slots).byteLength =
      settings.capacity.toNat := by
    rw [Image.byteLength, size_layOut, empty, total, ← count, Nat.zero_add, Nat.add_comm]
  have base : (layOut (draft.image .opened) (draft.nameIndex "").1 slots).base =
      settings.baseOf .opened := bases .opened
  rw [Image.contains, base, size, last, if_neg (by rw [UInt64.lt_iff_toNat_lt]; omega),
    if_neg (Nat.lt_irrefl _)]

/-- Under settings that pass validation, the addresses of all objects are sound, whatever is laid
out, unless the settings are overlong: then the opened region reaches past the last address, or its
end cannot be computed once it is full. -/
theorem addresses_iff (started : start settings = .ok draft) :
    (∀ parcels, ∃ laid last, draft.layAll parcels = .ok (laid, last) ∧
      last.Addresses settings laid) ↔ ¬ settings.Overlong := by
  obtain ⟨valid, _, _⟩ := validate_of_start started
  constructor
  · intro sound overlong
    obtain ⟨_, positive, even, _⟩ := Settings.of_validate valid
    have start := overlong.base
    have long := overlong.capacity
    have opened := Settings.toNat_addSaturating settings.base settings.capacity
    obtain ⟨_, _, _, addresses⟩ := sound []
    have ends := addresses.ends
    rw [Settings.baseOf, opened] at ends
    have last : (settings.baseOf .opened).toNat + settings.capacity.toNat = UInt64.size := by
      rw [Settings.baseOf, opened]
      unfold UInt64.size UInt32.size wordBytes at *
      omega
    obtain ⟨parcels, laid, full, run, broken⟩ :=
      exists_contains_error started last even positive (by
      rw [Settings.baseOf, opened] at last
      unfold UInt64.size UInt32.size at *
      omega)
    obtain ⟨_, _, again, filled⟩ := sound parcels
    rw [run] at again
    cases again
    obtain ⟨answer, contains⟩ := filled.contains .opened (settings.baseOf .opened)
    rw [broken] at contains
    cases contains
  · intro short
    exact addresses_of_bounded started ((Settings.bounded_iff valid).mpr short)

/-- The last base that a narrowing without a shift may have, and regions that are too
long for it. -/
def topSettings : Settings := { base := 0xffffffff00000000, shift := 0, capacity := 0x100000000 }

theorem addresses_iff_top : ∃ draft, start topSettings = .ok draft ∧ topSettings.Overlong ∧
    (draft.layAll [⟨.opened, "Node", #[]⟩, ⟨.opened, "Node", #[]⟩]).toOption = none ∧
    ¬ (∀ parcels, ∃ laid last, draft.layAll parcels = .ok (laid, last) ∧
      last.Addresses topSettings laid) := by
  have overlong : topSettings.Overlong := ⟨by decide, rfl, by decide⟩
  obtain ⟨draft, started⟩ : ∃ draft, start topSettings = .ok draft := ⟨_, rfl⟩
  refine ⟨draft, started, overlong, ?_, fun sound => (addresses_iff started).mp sound overlong⟩
  cases started
  decide +kernel

end Draft
end FrozenHeap
