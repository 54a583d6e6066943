namespace FrozenHeap.LittleEndian

def encode : (width : Nat) → Nat → List UInt8
  | 0, _ => []
  | width + 1, n => UInt8.ofNat n :: encode width (n / 256)

/-- How many numbers can be written in `width` bytes. -/
def count : (width : Nat) → Nat
  | 0 => 1
  | width + 1 => 256 * count width

def decode : List UInt8 → Nat
  | [] => 0
  | byte :: rest => byte.toNat + 256 * decode rest

@[simp] theorem length_encode (width n : Nat) : (encode width n).length = width := by
  induction width generalizing n with
  | zero => rfl
  | succ width ih => rw [encode, List.length_cons, ih]

private theorem decode_encode (width n : Nat) : decode (encode width n) = n % count width := by
  induction width generalizing n with
  | zero => rw [encode, decode, count, Nat.mod_one]
  | succ width ih =>
    rw [encode, decode, ih, count, Nat.mod_mul, UInt8.toNat_ofNat']

theorem decode_encode_of_lt {width n : Nat} (fits : n < count width) :
    decode (encode width n) = n := by
  rw [decode_encode, Nat.mod_eq_of_lt fits]

theorem decode_lt (bytes : List UInt8) : decode bytes < count bytes.length := by
  induction bytes with
  | nil => exact Nat.one_pos
  | cons byte rest ih =>
    have low := byte.toNat_lt
    rw [decode, List.length_cons, count]
    omega

theorem encode_decode (bytes : List UInt8) : encode bytes.length (decode bytes) = bytes := by
  induction bytes with
  | nil => rfl
  | cons byte rest ih =>
    have low := byte.toNat_lt
    rw [List.length_cons, decode, encode,
      show (byte.toNat + 256 * decode rest) / 256 = decode rest by omega, ih, List.cons.injEq]
    refine ⟨?_, rfl⟩
    apply UInt8.toNat_inj.mp
    rw [UInt8.toNat_ofNat']
    omega

end FrozenHeap.LittleEndian
