import FrozenHeap.Narrowing
import FrozenHeap.Region

namespace FrozenHeap

theorem stride_pos (shift : Nat) : 0 < stride shift := by
  rw [stride, Nat.one_shiftLeft]
  exact Nat.two_pow_pos shift

theorem shift_cases {shift : Nat} (small : shift ≤ maxShift) :
    shift = 0 ∨ shift = 1 ∨ shift = 2 ∨ shift = 3 := by
  unfold maxShift at small
  omega

/-- Word addresses lie on the stride of every narrowing. -/
theorem stride_dvd_wordBytes {shift : Nat} (small : shift ≤ maxShift) :
    stride shift ∣ wordBytes := by
  rcases shift_cases small with rfl | rfl | rfl | rfl <;> decide

namespace Narrowing

theorem toNat_top (narrowing : Narrowing) : narrowing.top.toNat =
    narrowing.base.toNat + (UInt32.size - 1) * stride narrowing.shift := by
  have fits := narrowing.fits
  unfold UInt64.size at fits
  rw [top, UInt64.toNat_add, UInt64.toNat_ofNat',
    Nat.mod_eq_of_lt (a := (UInt32.size - 1) * stride narrowing.shift) (by omega),
    Nat.mod_eq_of_lt (by omega)]

theorem narrow_eq_ok (narrowing : Narrowing) {address : UInt64} {steps : Nat} (positive : 0 < steps)
    (small : steps < UInt32.size)
    (far : address.toNat = narrowing.base.toNat + steps * stride narrowing.shift) :
    narrowing.narrow address = .ok (UInt32.ofNat steps) := by
  have ahead : 0 < steps * stride narrowing.shift := Nat.mul_pos positive (stride_pos _)
  have live : address ≠ 0 := by
    rintro rfl
    rw [UInt64.toNat_zero] at far
    omega
  have above : ¬ address ≤ narrowing.base := by
    rw [UInt64.le_iff_toNat_le]
    omega
  have shift := narrowing.shift_le
  have distance : address.toNat - narrowing.base.toNat = steps * stride narrowing.shift := by omega
  rw [narrow, narrowFrom, if_neg live, if_neg above, if_neg (by unfold maxShift at shift; omega)]
  simp only [distance, Nat.mul_mod_left, Nat.mul_div_cancel _ (stride_pos _), small, and_self,
    if_true]

theorem widen_eq (narrowing : Narrowing) {address : UInt64} {steps : Nat} (positive : 0 < steps)
    (small : steps < UInt32.size)
    (far : address.toNat = narrowing.base.toNat + steps * stride narrowing.shift) :
    narrowing.widen (UInt32.ofNat steps) = address := by
  have kept : (UInt32.ofNat steps).toNat = steps := by
    rw [UInt32.toNat_ofNat', Nat.mod_eq_of_lt small]
  have live : UInt32.ofNat steps ≠ 0 := by
    intro zero
    rw [zero, UInt32.toNat_zero] at kept
    omega
  apply UInt64.toNat.inj
  rw [toNat_widen _ live, reach, kept, far]

/-- An address above the base, on the stride and within reach has a narrow form that is not null
and stands for it. -/
theorem exists_narrow (narrowing : Narrowing) {address : UInt64}
    (above : narrowing.base.toNat < address.toNat)
    (aligned : stride narrowing.shift ∣ address.toNat - narrowing.base.toNat)
    (near : address.toNat - narrowing.base.toNat ≤
      (UInt32.size - 1) * stride narrowing.shift) :
    ∃ narrow, narrowing.narrow address = .ok narrow ∧ narrow ≠ 0 ∧
      narrowing.widen narrow = address := by
  obtain ⟨steps, distance⟩ := aligned
  rw [Nat.mul_comm] at distance
  have positive : 0 < steps := by
    rcases Nat.eq_zero_or_pos steps with rfl | positive
    · omega
    · exact positive
  have small : steps < UInt32.size := by
    rw [distance] at near
    have bound := Nat.le_of_mul_le_mul_right near (stride_pos _)
    have size : 0 < UInt32.size := by decide
    omega
  have far : address.toNat = narrowing.base.toNat + steps * stride narrowing.shift := by omega
  refine ⟨UInt32.ofNat steps, narrow_eq_ok _ positive small far, ?_, widen_eq _ positive small far⟩
  intro zero
  have same := congrArg UInt32.toNat zero
  rw [UInt32.toNat_ofNat', Nat.mod_eq_of_lt small, UInt32.toNat_zero] at same
  omega

end Narrowing
end FrozenHeap
