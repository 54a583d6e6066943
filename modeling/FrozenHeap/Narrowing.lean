import FrozenHeap.Breach

/-!
Narrow references. An archived reference is a 32-bit distance from a base address, scaled by a power
of two; zero stands for null on both sides. `Narrowing` is a base and a shift whose whole 32-bit
range stays below `2 ^ 64`.
-/
namespace FrozenHeap

abbrev Narrow := UInt32

/-- The distance between two neighbouring addresses with narrow forms. -/
def stride (shift : Nat) : Nat := 1 <<< shift

/-- The narrow form of an address that lies above `base`, a multiple of the stride away from it. -/
def narrowFrom (base : UInt64) (shift : Nat) (address : UInt64) : Run Narrow :=
  if address = 0 then .ok 0
  else if address ≤ base then .error .precondition
  else if 64 ≤ shift then .error .overflow
  else
    let distance := address.toNat - base.toNat
    if distance % stride shift = 0 ∧ distance / stride shift < UInt32.size then
      .ok (UInt32.ofNat (distance / stride shift))
    else .error .precondition

/-- The address of a narrow reference. Bits shifted out at the top are lost. -/
def widenFrom (base : UInt64) (shift : Nat) (narrow : Narrow) : Run UInt64 :=
  if narrow = 0 then .ok 0
  else if 64 ≤ shift then .error .overflow
  else addWord base (UInt64.ofNat (narrow.toNat * stride shift))

/-- The largest shift of a narrowing: images are made of eight-byte words. -/
def maxShift : Nat := 3

/-- A base and a shift under which every narrow reference has an address. -/
structure Narrowing where
  base : UInt64
  shift : Nat
  shift_le : shift ≤ maxShift
  aligned : base.toNat % stride shift = 0
  fits : base.toNat + (UInt32.size - 1) * stride shift < UInt64.size
  deriving DecidableEq

namespace Narrowing

/-- The narrowing with this base and shift, if they are fit for one. -/
def of? (base : UInt64) (shift : Nat) : Option Narrowing :=
  if fit : shift ≤ maxShift ∧ base.toNat % stride shift = 0 ∧
      base.toNat + (UInt32.size - 1) * stride shift < UInt64.size then
    some ⟨base, shift, fit.1, fit.2.1, fit.2.2⟩
  else none

/-- The distance of a narrow reference from the base. -/
def reach (narrowing : Narrowing) (narrow : Narrow) : Nat :=
  narrow.toNat * stride narrowing.shift

/-- The highest address with a narrow form. -/
def top (narrowing : Narrowing) : UInt64 :=
  narrowing.base + UInt64.ofNat ((UInt32.size - 1) * stride narrowing.shift)

def narrow (narrowing : Narrowing) (address : UInt64) : Run Narrow :=
  narrowFrom narrowing.base narrowing.shift address

/-- The address of a narrow reference; it exists for each of them. -/
def widen (narrowing : Narrowing) (narrow : Narrow) : UInt64 :=
  if narrow = 0 then 0
  else narrowing.base + UInt64.ofNat (narrowing.reach narrow)

theorem reach_le (narrowing : Narrowing) (narrow : Narrow) :
    narrowing.reach narrow ≤ (UInt32.size - 1) * stride narrowing.shift := by
  exact Nat.mul_le_mul_right _ (Nat.le_sub_one_of_lt narrow.toNat_lt_size)

theorem widen_zero (narrowing : Narrowing) : narrowing.widen 0 = 0 := rfl

theorem toNat_widen (narrowing : Narrowing) {narrow : Narrow} (live : narrow ≠ 0) :
    (narrowing.widen narrow).toNat = narrowing.base.toNat + narrowing.reach narrow := by
  have reached := narrowing.reach_le narrow
  have fits := narrowing.fits
  unfold UInt64.size at fits
  rw [widen, if_neg live, UInt64.toNat_add, UInt64.toNat_ofNat',
    Nat.mod_eq_of_lt (a := narrowing.reach narrow) (by omega), Nat.mod_eq_of_lt (by omega)]

/-- The total `widen` is the checked one, whose checks cannot fail here. -/
theorem widenFrom_eq (narrowing : Narrowing) (narrow : Narrow) :
    widenFrom narrowing.base narrowing.shift narrow = .ok (narrowing.widen narrow) := by
  by_cases null : narrow = 0
  · subst null
    rfl
  · have small := narrowing.shift_le
    have reached := narrowing.reach_le narrow
    have fits := narrowing.fits
    rw [widenFrom, if_neg null, if_neg (by unfold maxShift at small; omega), addWord_eq_ok_iff,
      toNat_widen _ null, UInt64.toNat_ofNat']
    unfold UInt64.size at fits
    unfold reach at *
    rw [Nat.mod_eq_of_lt (by omega)]

end Narrowing
end FrozenHeap
