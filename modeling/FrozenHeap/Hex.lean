namespace FrozenHeap.Hex

def digit (n : Nat) : Char := Char.ofNat (if n < 10 then 48 + n else 87 + n)

def encode (bytes : List UInt8) : String :=
  String.ofList (bytes.flatMap fun byte => [digit (byte.toNat / 16), digit (byte.toNat % 16)])

def digit? (c : Char) : Option Nat :=
  if '0' ≤ c ∧ c ≤ '9' then some (c.toNat - 48)
  else if 'a' ≤ c ∧ c ≤ 'f' then some (c.toNat - 87)
  else if 'A' ≤ c ∧ c ≤ 'F' then some (c.toNat - 55)
  else none

/-- Bytes from digits, behind those read before. -/
def decodeInto : List Char → Array UInt8 → Option (Array UInt8)
  | high :: low :: rest, bytes =>
    match digit? high, digit? low with
    | some high, some low => decodeInto rest (bytes.push (UInt8.ofNat (16 * high + low)))
    | _, _ => none
  | [], bytes => some bytes
  | [_], _ => none

def decode? (digits : String) : Option (Array UInt8) := decodeInto digits.toList #[]

end FrozenHeap.Hex
