import FrozenHeap.Narrowing.Shifting
import FrozenHeap.Proofs.Archive.Measuring
import Mathlib.Algebra.Group.Nat.Defs

namespace FrozenHeap

private theorem stride_eq (shift : Nat) : stride shift = 2 ^ shift := Nat.one_shiftLeft shift

namespace Narrowing

private theorem shiftNarrow_eq (base : UInt64) (shift : Nat) (address : UInt64) :
    shiftNarrow base shift address = narrowFrom base shift address := by
  unfold shiftNarrow narrowFrom
  by_cases null : address = 0
  · rw [if_pos null, if_pos null]
    rfl
  rw [if_neg null, if_neg null]
  by_cases below : address ≤ base
  · have bounded : ¬ base < address := by
      rw [UInt64.lt_iff_toNat_lt]
      rw [UInt64.le_iff_toNat_le] at below
      omega
    rw [ensure, if_neg bounded, if_pos below]
    rfl
  have above : base < address := by
    rw [UInt64.lt_iff_toNat_lt]
    rw [UInt64.le_iff_toNat_le] at below
    omega
  have order : base ≤ address := UInt64.le_of_lt above
  rw [ensure, if_pos above, if_neg below, subWord, if_pos order]
  by_cases long : 64 ≤ shift
  · have past : ¬ shift < 64 := by omega
    simp only [bind, Except.bind, shiftUp, if_neg past, if_pos long]
  have narrow : shift < 64 := Nat.lt_of_not_le long
  have step : shiftUp 1 shift = .ok (UInt64.ofNat (1 * stride shift)) :=
    shiftUp_ofNat narrow (by decide)
  have distance : (address - base).toNat = address.toNat - base.toNat :=
    UInt64.toNat_sub_of_le _ _ order
  have steps : (address.toNat - base.toNat) / stride shift < 2 ^ 64 := by
    rw [← distance]
    exact Nat.lt_of_le_of_lt (Nat.div_le_self _ _) (UInt64.toNat_lt _)
  rw [if_neg long, step, Nat.one_mul]
  simp only [bind, Except.bind, low_ok narrow, shiftDown_eq narrow, and_low_eq_zero_iff _ narrow,
    distance, ensure, UInt64.toNat_ofNat', Nat.mod_eq_of_lt steps, UInt64.toUInt32_ofNat']
  by_cases aligned : (address.toNat - base.toNat) % stride shift = 0
  · by_cases near : (address.toNat - base.toNat) / stride shift < UInt32.size
    · simp only [aligned, near, and_self, if_true]
      rfl
    · simp only [aligned, near, and_false, if_false, if_true]
  · simp only [aligned, false_and, if_false]

private theorem shiftWiden_eq (base : UInt64) (shift : Nat) (narrow : Narrow) :
    shiftWiden base shift narrow = widenFrom base shift narrow := by
  have scaled (small : shift < 64) : shiftUp narrow.toUInt64 shift =
      .ok (UInt64.ofNat (narrow.toNat * stride shift)) := by
    have word : narrow.toUInt64 = UInt64.ofNat narrow.toNat := by
      rw [← UInt32.toNat_toUInt64, UInt64.ofNat_toNat]
    rw [word]
    exact shiftUp_ofNat small (Nat.lt_trans narrow.toNat_lt (by decide))
  unfold shiftWiden widenFrom
  split
  · rfl
  · split
    · rename_i long
      rw [shiftUp, if_neg (Nat.not_lt_of_le long)]
      rfl
    · rename_i short
      rw [scaled (Nat.lt_of_not_le short)]
      rfl

variable (narrowing : Narrowing)

private theorem shift_lt : narrowing.shift < 64 := by
  have small := narrowing.shift_le
  unfold maxShift at small
  omega

private theorem shiftTop_eq : shiftTop narrowing.base narrowing.shift = .ok narrowing.top := by
  have fits := narrowing.fits
  have reach : UInt32.size - 1 < UInt64.size := by decide
  rw [shiftTop, shiftUp_ofNat narrowing.shift_lt reach]
  simp only [bind, Except.bind]
  unfold UInt64.size at fits
  rw [addWord_eq_ok_iff, toNat_top, UInt64.toNat_ofNat', Nat.mod_eq_of_lt (by omega)]

private theorem base_lt_widen {narrow : Narrow} (live : narrow ≠ 0) :
    narrowing.base < narrowing.widen narrow := by
  have positive : 0 < narrow.toNat := Nat.pos_of_ne_zero fun zero => live (UInt32.toNat.inj zero)
  have ahead : 0 < narrowing.reach narrow := Nat.mul_pos positive (stride_pos _)
  rw [UInt64.lt_iff_toNat_lt, toNat_widen _ live]
  omega

private theorem widen_le_top {narrow : Narrow} (live : narrow ≠ 0) :
    narrowing.widen narrow ≤ narrowing.top := by
  rw [UInt64.le_iff_toNat_le, toNat_widen _ live, toNat_top]
  exact Nat.add_le_add_left (narrowing.reach_le narrow) _

private theorem widen_lt_widen {narrow other : Narrow} (live : narrow ≠ 0) (less : narrow < other) :
    narrowing.widen narrow < narrowing.widen other := by
  have order := UInt32.lt_iff_toNat_lt.mp less
  have behind : other ≠ 0 := by
    rintro rfl
    exact Nat.not_lt_zero _ order
  rw [UInt64.lt_iff_toNat_lt, toNat_widen _ live, toNat_widen _ behind]
  exact Nat.add_lt_add_left (Nat.mul_lt_mul_of_pos_right order (stride_pos _)) _

private theorem widen_eq_zero_iff {narrow : Narrow} : narrowing.widen narrow = 0 ↔ narrow = 0 := by
  constructor
  · intro null
    refine Decidable.byContradiction fun live => ?_
    have above := UInt64.lt_iff_toNat_lt.mp (narrowing.base_lt_widen live)
    rw [null] at above
    exact Nat.not_lt_zero _ above
  · rintro rfl
    exact narrowing.widen_zero

private theorem narrow_widen (narrow : Narrow) :
    narrowing.narrow (narrowing.widen narrow) = .ok narrow := by
  by_cases live : narrow = 0
  · subst live
    rfl
  · have positive : 0 < narrow.toNat := Nat.pos_of_ne_zero fun zero => live (UInt32.toNat.inj zero)
    rw [narrowing.narrow_eq_ok positive narrow.toNat_lt_size (narrowing.toNat_widen live),
      UInt32.ofNat_toNat]

/-- An address is null, or lies above the base, on the stride and not behind the highest one. -/
def Spans (address : UInt64) : Prop :=
  address = 0 ∨ narrowing.base < address ∧ address ≤ narrowing.top ∧
    2 ^ narrowing.shift ∣ address.toNat - narrowing.base.toNat

private theorem exists_narrow_of_spans {address : UInt64} (spans : narrowing.Spans address) :
    ∃ narrow, narrowing.narrow address = .ok narrow ∧ narrowing.widen narrow = address := by
  rcases spans with rfl | ⟨above, below, aligned⟩
  · exact ⟨0, rfl, rfl⟩
  · rw [UInt64.lt_iff_toNat_lt] at above
    rw [UInt64.le_iff_toNat_le, toNat_top] at below
    rw [← stride_eq] at aligned
    obtain ⟨narrow, narrowed, _, wide⟩ := narrowing.exists_narrow above aligned (by omega)
    exact ⟨narrow, narrowed, wide⟩

/-- Widening and narrowing undo each other, whether they are computed with machine words or not. -/
structure Bijective : Prop where
  narrows : ∀ address,
    shiftNarrow narrowing.base narrowing.shift address = narrowing.narrow address
  /-- No narrow reference overflows on the way to its address. -/
  widens : ∀ narrow,
    shiftWiden narrowing.base narrowing.shift narrow = .ok (narrowing.widen narrow)
  highest : shiftTop narrowing.base narrowing.shift = .ok narrowing.top
  increasing : ∀ narrow other, narrow ≠ 0 → narrow < other →
    narrowing.widen narrow < narrowing.widen other
  above : ∀ narrow, narrow ≠ 0 → narrowing.base < narrowing.widen narrow
  below : ∀ narrow, narrow ≠ 0 → narrowing.widen narrow ≤ narrowing.top
  null : ∀ narrow, narrowing.widen narrow = 0 ↔ narrow = 0
  narrow_widen : ∀ narrow, narrowing.narrow (narrowing.widen narrow) = .ok narrow
  widen_narrow : ∀ address, narrowing.Spans address →
    ∃ narrow, narrowing.narrow address = .ok narrow ∧ narrowing.widen narrow = address

theorem bijective : narrowing.Bijective where
  narrows := shiftNarrow_eq narrowing.base narrowing.shift
  widens narrow := by rw [shiftWiden_eq, widenFrom_eq]
  highest := narrowing.shiftTop_eq
  increasing _ _ := narrowing.widen_lt_widen
  above _ := narrowing.base_lt_widen
  below _ := narrowing.widen_le_top
  null _ := narrowing.widen_eq_zero_iff
  narrow_widen := narrowing.narrow_widen
  widen_narrow _ := narrowing.exists_narrow_of_spans

private theorem isSome_of?_iff {base : UInt64} {shift : Nat} : (of? base shift).isSome = true ↔
    shift ≤ 3 ∧ 2 ^ shift ∣ base.toNat ∧ base.toNat + (2 ^ 32 - 1) * 2 ^ shift < 2 ^ 64 := by
  rw [← stride_eq, Nat.dvd_iff_mod_eq_zero]
  unfold of?
  split
  · rename_i fit
    exact ⟨fun _ => fit, fun _ => rfl⟩
  · rename_i unfit
    exact ⟨fun impossible => absurd impossible Bool.false_ne_true, fun fit => absurd fit unfit⟩

private theorem of_of?_eq_some {narrowing : Narrowing} {base : UInt64} {shift : Nat}
    (accepted : of? base shift = some narrowing) :
    narrowing.base = base ∧ narrowing.shift = shift := by
  unfold of? at accepted
  split at accepted
  · cases accepted
    exact ⟨rfl, rfl⟩
  · cases accepted

/-- A base and a shift are accepted if the shift is small, the base lies on the stride, and the
highest address exists; otherwise they are refused. What is accepted is a bijection between narrow
references and the addresses that it spans. -/
theorem bijective_of? (base : UInt64) (shift : Nat) :
    measure base shift = .ok (of? base shift) ∧
    ((of? base shift).isSome = true ↔
      shift ≤ 3 ∧ 2 ^ shift ∣ base.toNat ∧ base.toNat + (2 ^ 32 - 1) * 2 ^ shift < 2 ^ 64) ∧
    ∀ narrowing, of? base shift = some narrowing →
      narrowing.base = base ∧ narrowing.shift = shift ∧ narrowing.Bijective := by
  refine ⟨measure_eq base shift, isSome_of?_iff, fun narrowing accepted => ?_⟩
  obtain ⟨sameBase, sameShift⟩ := of_of?_eq_some accepted
  exact ⟨sameBase, sameShift, narrowing.bijective⟩

/-- The last base that is accepted: the largest narrow reference stands for the last address. -/
example : (of? 0xffffffff00000000 0).map (fun narrowing =>
    (narrowing.top, narrowing.widen 0xffffffff)) =
      some (0xffffffffffffffff, 0xffffffffffffffff) := by decide

end Narrowing
end FrozenHeap
