import FrozenHeap.Proofs.Draft.Cells
import FrozenHeap.Proofs.Narrowing

namespace FrozenHeap

/-- The word that a region's first object starts at: the closed region keeps one free. -/
def Region.first : Region → Nat
  | .closed => 1
  | .opened => 0

namespace Draft

@[simp] theorem image_modifyImage (draft : Draft) (region other : Region)
    (change : Image → Image) : (draft.modifyImage region change).image other =
      if other = region then change (draft.image region) else draft.image other := by
  cases region <;> cases other <;> rfl

@[simp] theorem narrowing_modifyImage (draft : Draft) (region : Region) (change : Image → Image) :
    (draft.modifyImage region change).narrowing = draft.narrowing := by
  cases region <;> rfl

@[simp] theorem capacity_modifyImage (draft : Draft) (region : Region) (change : Image → Image) :
    (draft.modifyImage region change).capacity = draft.capacity := by
  cases region <;> rfl

@[simp] theorem names_modifyImage (draft : Draft) (region : Region) (change : Image → Image) :
    (draft.modifyImage region change).names = draft.names := by
  cases region <;> rfl

theorem nameIndex_cases (draft : Draft) (name : String) :
    (name ∈ draft.names ∧ (draft.nameIndex name).2 = draft ∨
      name ∉ draft.names ∧
        (draft.nameIndex name).2 = { draft with names := draft.names.push name }) ∧
    (draft.nameIndex name).2.names[(draft.nameIndex name).1]? = some name := by
  unfold nameIndex
  split
  · rename_i index found
    obtain ⟨inside, here, _⟩ := Array.findIdx?_eq_some_iff_getElem.mp found
    have same : draft.names[index] = name := by simpa using here
    exact ⟨.inl ⟨same ▸ Array.getElem_mem inside, rfl⟩,
      Array.getElem?_eq_some_iff.mpr ⟨inside, same⟩⟩
  · rename_i missing
    have absent : name ∉ draft.names := by
      intro member
      simpa using Array.findIdx?_eq_none_iff.mp missing name member
    exact ⟨.inr ⟨absent, rfl⟩, by simp⟩

def placeAt (draft : Draft) (region : Region) (index : Nat) : Place :=
  ⟨region, (draft.image region).base + UInt64.ofNat (wordBytes * index)⟩

/-- How far behind the base of the narrowing a region is laid out. -/
def offsetOf (draft : Draft) : Region → Nat
  | .closed => 0
  | .opened => draft.capacity.toNat

/-- Both images have their place within the reach of the narrowing, next to each other, and their
marks cover their words. -/
structure Framed (draft : Draft) : Prop where
  region : ∀ region, (draft.image region).region = region
  base : ∀ region, (draft.image region).base.toNat =
    draft.narrowing.base.toNat + draft.offsetOf region
  whole : wordBytes ∣ draft.capacity.toNat
  reach : 2 * draft.capacity.toNat ≤ (UInt32.size - 1) * stride draft.narrowing.shift
  covered : ∀ region, (draft.image region).Covered
  first_le : ∀ region, region.first ≤ (draft.image region).words.size
  within : ∀ region, wordBytes * (draft.image region).words.size ≤ draft.capacity.toNat
  sentinel : draft.closed.cellAt? 0 = some ⟨0, false⟩

namespace Framed

variable {draft : Draft} (framed : draft.Framed)
include framed

private theorem limit_lt : draft.narrowing.base.toNat + 2 * draft.capacity.toNat < UInt64.size :=
  Nat.lt_of_le_of_lt (Nat.add_le_add_left framed.reach _) draft.narrowing.fits

/-- The end of a region's room exists and lies within the reach of the narrowing. -/
theorem base_add_le (region : Region) : (draft.image region).base.toNat + draft.capacity.toNat ≤
    draft.narrowing.base.toNat + 2 * draft.capacity.toNat := by
  rw [framed.base]
  cases region <;> simp only [offsetOf] <;> omega

theorem toNat_placeAt (region : Region) {index : Nat}
    (near : wordBytes * index ≤ draft.capacity.toNat) :
    (draft.placeAt region index).address.toNat =
      (draft.image region).base.toNat + wordBytes * index := by
  have limit := framed.limit_lt
  unfold UInt64.size at limit
  have room := framed.base_add_le region
  rw [placeAt, UInt64.toNat_add, UInt64.toNat_ofNat', Nat.mod_eq_of_lt (a := wordBytes * index)
    (by omega), Nat.mod_eq_of_lt (by omega)]

theorem near_of_lt {region : Region} {index : Nat}
    (inside : index < (draft.image region).words.size) :
    wordBytes * index + wordBytes ≤ draft.capacity.toNat := by
  have within := framed.within region
  unfold wordBytes at *
  omega

/-- Both regions together take fewer words than there are narrow references. -/
theorem capacity_le : 2 * draft.capacity.toNat ≤ (UInt32.size - 1) * wordBytes := by
  have small : stride draft.narrowing.shift ≤ stride maxShift := by
    rw [stride, stride, Nat.one_shiftLeft, Nat.one_shiftLeft]
    exact Nat.pow_le_pow_right (by omega) draft.narrowing.shift_le
  exact Nat.le_trans framed.reach (Nat.mul_le_mul_left _ small)

/-- Half the range of narrow references is room enough for each region. -/
theorem size_le (region : Region) :
    2 * (draft.image region).words.size ≤ UInt32.size - 1 := by
  have within := framed.within region
  have room := framed.capacity_le
  unfold wordBytes at *
  omega

theorem placeAt_inj {region other : Region} {index position : Nat}
    (inside : index < (draft.image region).words.size)
    (within : position < (draft.image other).words.size)
    (same : (draft.placeAt region index).address = (draft.placeAt other position).address) :
    region = other ∧ index = position := by
  have near := framed.near_of_lt inside
  have close := framed.near_of_lt within
  have places := congrArg UInt64.toNat same
  rw [framed.toNat_placeAt region (by unfold wordBytes at *; omega),
    framed.toNat_placeAt other (by unfold wordBytes at *; omega), framed.base,
      framed.base] at places
  unfold wordBytes at *
  cases region <;> cases other <;> simp only [offsetOf] at places
  · exact ⟨rfl, by omega⟩
  · omega
  · omega
  · exact ⟨rfl, by omega⟩

theorem wordIndex_placeAt {region : Region} {index : Nat}
    (inside : index < (draft.image region).words.size) :
    wordIndex (draft.image region) (draft.placeAt region index).address = .ok index := by
  have near := framed.near_of_lt inside
  have place := framed.toNat_placeAt region (show wordBytes * index ≤ _ by omega)
  have limit := framed.limit_lt
  unfold UInt64.size at limit
  have room := framed.base_add_le region
  have distance : (UInt64.ofNat (wordBytes * index)).toNat = wordBytes * index := by
    rw [UInt64.toNat_ofNat', Nat.mod_eq_of_lt (by omega)]
  have difference : subWord (draft.placeAt region index).address (draft.image region).base =
      .ok (UInt64.ofNat (wordBytes * index)) := by
    rw [subWord_eq_ok_iff, place, distance]
  simp only [wordIndex, difference, bind, Except.bind, pure, Except.pure, distance]
  rw [Nat.mul_div_cancel_left index (by decide)]

/-- Asking whether an image spans an address has an answer. -/
theorem contains_eq (region : Region) (address : UInt64) :
    (draft.image region).contains address =
      .ok (decide ((draft.image region).base.toNat ≤ address.toNat ∧
        address.toNat < (draft.image region).base.toNat +
          wordBytes * (draft.image region).words.size)) := by
  have limit := framed.limit_lt
  unfold UInt64.size at limit
  have room := framed.base_add_le region
  have within := framed.within region
  have fits : (draft.image region).base.toNat + (draft.image region).byteLength < UInt64.size := by
    unfold Image.byteLength UInt64.size
    omega
  unfold Image.contains
  by_cases below : address < (draft.image region).base
  · have order := UInt64.lt_iff_toNat_lt.mp below
    rw [if_pos below]
    simp [show ¬ (draft.image region).base.toNat ≤ address.toNat by omega]
  · have order : (draft.image region).base.toNat ≤ address.toNat := by
      rw [UInt64.lt_iff_toNat_lt] at below
      omega
    rw [if_neg below, if_pos fits, Image.byteLength]
    congr 1
    exact decide_eq_decide.mpr ⟨fun before => ⟨order, before⟩, And.right⟩

theorem contains_placeAt {region : Region} {index : Nat}
    (inside : index < (draft.image region).words.size) :
    (draft.image region).contains (draft.placeAt region index).address = .ok true := by
  have near := framed.near_of_lt inside
  have place := framed.toNat_placeAt region (show wordBytes * index ≤ _ by omega)
  rw [framed.contains_eq region, place]
  simp only [Except.ok.injEq, decide_eq_true_eq]
  unfold wordBytes
  omega

/-- A word at or past the first object of its region has a narrow form. -/
theorem exists_narrow {region : Region} {index : Nat} (behind : region.first ≤ index)
    (inside : index < (draft.image region).words.size) :
    ∃ narrow, draft.narrowing.narrow (draft.placeAt region index).address = .ok narrow ∧
      narrow ≠ 0 ∧ draft.narrowing.widen narrow = (draft.placeAt region index).address := by
  have near := framed.near_of_lt inside
  have place := framed.toNat_placeAt region (show wordBytes * index ≤ _ by omega)
  have base := framed.base region
  have reach := framed.reach
  have whole := framed.whole
  have step := stride_dvd_wordBytes draft.narrowing.shift_le
  have distance : (draft.placeAt region index).address.toNat - draft.narrowing.base.toNat =
      draft.offsetOf region + wordBytes * index := by omega
  have aligned : wordBytes ∣ draft.offsetOf region := by
    cases region
    · exact Nat.dvd_zero _
    · exact whole
  apply draft.narrowing.exists_narrow
  · cases region <;> simp only [offsetOf, Region.first, wordBytes] at * <;> omega
  · rw [distance]
    exact Nat.dvd_add (Nat.dvd_trans step aligned) (Nat.dvd_mul_right_of_dvd step _)
  · rw [distance]
    cases region <;> simp only [offsetOf] <;> omega

/-- A narrow reference to a word that is laid out resolves to the word's place. -/
theorem resolve?_widen {region : Region} {index : Nat} {narrow : Narrow}
    (inside : index < (draft.image region).words.size) (live : narrow ≠ 0)
    (wide : draft.narrowing.widen narrow = (draft.placeAt region index).address) :
    draft.resolve? narrow = .ok (some (draft.placeAt region index)) := by
  have near := framed.near_of_lt inside
  have place := framed.toNat_placeAt region (show wordBytes * index ≤ _ by omega)
  have spanned := framed.contains_placeAt inside
  have closedBase := framed.base .closed
  have closedWithin := framed.within .closed
  cases region with
  | closed =>
    have found : draft.closed.contains (draft.placeAt .closed index).address = .ok true := spanned
    simp only [resolve?, if_neg live, wide, found, bind, Except.bind, pure, Except.pure, if_true]
    rfl
  | opened =>
    have base := framed.base .opened
    have apart : draft.closed.contains (draft.placeAt .opened index).address = .ok false := by
      have answer := framed.contains_eq .closed (draft.placeAt .opened index).address
      rw [show draft.closed = draft.image .closed from rfl, answer, place]
      simp only [Except.ok.injEq, decide_eq_false_iff_not]
      simp only [offsetOf] at base closedBase
      omega
    have found : draft.opened.contains (draft.placeAt .opened index).address = .ok true := spanned
    simp only [resolve?, if_neg live, wide, apart, found, bind, Except.bind, pure, Except.pure,
      if_true, Bool.false_eq_true, if_false]
    rfl

/-- Objects are laid out behind the last word of their region, as long as there is room. -/
theorem allocate_eq (region : Region) (name : String) (slots : Array Slot) :
    draft.allocate region name slots =
      if draft.capacity.toNat < wordBytes * ((draft.image region).words.size + 1 + slots.size) ∨
          UInt32.size ≤ slots.size then
        .ok (.error (.regionOverflow region draft.capacity), draft)
      else
        .ok (.ok (draft.placeAt region (draft.image region).words.size),
          (draft.nameIndex name).2.modifyImage region
            (layOut · (draft.nameIndex name).1 slots)) := by
  have limit := framed.limit_lt
  unfold UInt64.size at limit
  have room := framed.base_add_le region
  have within := framed.within region
  unfold allocate
  by_cases full : draft.capacity.toNat <
      wordBytes * ((draft.image region).words.size + 1 + slots.size) ∨ UInt32.size ≤ slots.size
  · simp only [if_pos full]
  · rw [if_neg full]
    have distance : toWord (wordBytes * (draft.image region).words.size) =
        .ok (UInt64.ofNat (wordBytes * (draft.image region).words.size)) := by
      rw [toWord_eq_ok_iff, UInt64.toNat_ofNat', Nat.mod_eq_of_lt (by omega)]
    have address : addWord (draft.image region).base
        (UInt64.ofNat (wordBytes * (draft.image region).words.size)) =
        .ok (draft.placeAt region (draft.image region).words.size).address := by
      rw [addWord_eq_ok_iff, framed.toNat_placeAt region within, UInt64.toNat_ofNat',
        Nat.mod_eq_of_lt (by omega)]
    simp only [if_neg full, distance, address]
    rfl

end Framed
end Draft

namespace Settings

/-- Both regions end within the address space. -/
def Bounded (settings : Settings) : Prop :=
  settings.base.toNat + 2 * settings.capacity.toNat < UInt64.size

instance (settings : Settings) : Decidable settings.Bounded := inferInstanceAs (Decidable (_ < _))

variable {settings : Settings}

theorem toNat_addSaturating (a b : UInt64) :
    (addSaturating a b).toNat = min (a.toNat + b.toNat) (UInt64.size - 1) := by
  unfold addSaturating
  split
  · rename_i small
    rw [UInt64.toNat_add, Nat.mod_eq_of_lt small]
    omega
  · rename_i large
    rw [Nat.min_eq_right (by omega)]
    rfl

theorem toNat_baseOf_opened (bounded : settings.Bounded) :
    (settings.baseOf .opened).toNat = settings.base.toNat + settings.capacity.toNat := by
  unfold Bounded UInt64.size at bounded
  rw [baseOf, addSaturating, if_pos (by unfold UInt64.size; omega), UInt64.toNat_add,
    Nat.mod_eq_of_lt (by omega)]

private theorem toNat_limit (bounded : settings.Bounded) :
    settings.limit.toNat = settings.base.toNat + 2 * settings.capacity.toNat := by
  have opened := toNat_baseOf_opened bounded
  unfold Bounded UInt64.size at bounded
  rw [limit, addSaturating, if_pos (by unfold UInt64.size; omega), UInt64.toNat_add, opened,
    Nat.mod_eq_of_lt (by omega)]
  omega

theorem of_validate {narrowing : Narrowing} (valid : settings.validate = .ok narrowing) :
    narrowing.base = settings.base ∧ 0 < settings.capacity.toNat ∧
      wordBytes ∣ settings.capacity.toNat ∧ settings.limit.toNat ≤ narrowing.top.toNat := by
  unfold validate at valid
  split at valid
  · cases valid
  rename_i same
  split at valid
  · cases valid
  rename_i room
  split at valid
  · cases valid
  rename_i top
  split at valid
  · cases valid
  cases valid
  rw [UInt64.lt_iff_toNat_lt] at top
  obtain ⟨positive, whole⟩ := not_or.mp room
  refine ⟨?_, Nat.pos_of_ne_zero positive, Nat.dvd_of_mod_eq_zero (Decidable.not_not.mp whole),
    Nat.le_of_not_lt top⟩
  unfold Settings.narrowing Narrowing.of? at same
  split at same
  · rename_i fit
    split at fit
    · cases same
      cases fit
      rfl
    · cases fit
  · cases same

end Settings

namespace Draft

theorem validate_of_start {settings : Settings} {draft : Draft}
    (started : start settings = .ok draft) :
    settings.validate = .ok draft.narrowing ∧ draft.capacity = settings.capacity ∧
      ∀ region, (draft.image region).base = settings.baseOf region := by
  unfold start at started
  split at started
  · cases started
  · rename_i narrowing valid
    cases started
    exact ⟨valid, rfl, fun region => by cases region <;> rfl⟩

theorem framed_start {settings : Settings} {draft : Draft}
    (started : start settings = .ok draft) (bounded : settings.Bounded) : draft.Framed := by
  have opened := Settings.toNat_baseOf_opened bounded
  unfold start at started
  split at started
  · cases started
  rename_i narrowing valid
  cases started
  obtain ⟨base, positive, whole, top⟩ := Settings.of_validate valid
  rw [Settings.toNat_limit bounded, narrowing.toNat_top, base] at top
  constructor
  · intro region
    cases region <;> rfl
  · intro region
    rw [base]
    cases region
    · rfl
    · exact opened
  · exact whole
  · exact Nat.le_of_add_le_add_left top
  · intro region
    cases region <;> rfl
  · intro region
    cases region
    · exact Nat.le_refl 1
    · exact Nat.le_refl 0
  · intro region
    cases region
    · exact Nat.le_of_dvd positive whole
    · exact Nat.zero_le _
  · have clear : (Marks.clear 1).isSet 0 = false := by decide
    exact Image.cellAt?_eq_some_iff.mpr ⟨rfl, clear⟩

end Draft
end FrozenHeap
