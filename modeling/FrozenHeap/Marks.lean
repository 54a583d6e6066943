import FrozenHeap.Breach

/-!
Reference marks. One bit for each word of an image says whether the word holds a reference. The bits
are packed into 64-bit words, lowest bit first, so `Marks` is a packed set of indexes below
`length`.
-/
namespace FrozenHeap

/-- How many 64-bit words hold `length` bits. -/
def wordsFor (length : Nat) : Nat := (length + 63) / 64

/-- The bit at an index of packed words; past their end there is none set. -/
def packedBit (words : Array UInt64) (index : Nat) : Bool :=
  (words[index / 64]?.getD 0).toBitVec.getLsbD (index % 64)

/-- A set of indexes below `length`, packed. -/
structure Marks where
  words : Array UInt64
  length : Nat
  sized : words.size = wordsFor length
  bounded : ∀ index, length ≤ index → packedBit words index = false

/-- The word whose lowest `count` bits are set. -/
def lowBits (count : Nat) : UInt64 := ⟨BitVec.allOnes 64 >>> (64 - count)⟩

def popCount (word : UInt64) : Nat := (List.range 64).countP (word.toBitVec.getLsbD ·)

theorem getLsbD_lowBits {count bit : Nat} (small : count ≤ 64) :
    (lowBits count).toBitVec.getLsbD bit = decide (bit < count) := by
  simp only [lowBits, BitVec.getLsbD_ushiftRight, BitVec.getLsbD_allOnes, decide_eq_decide]
  omega

def oneBit (bit : Nat) : UInt64 := ⟨BitVec.twoPow 64 bit⟩

theorem packedBit_past {words : Array UInt64} {index : Nat} (past : words.size ≤ index / 64) :
    packedBit words index = false := by
  simp [packedBit, Array.getElem?_eq_none past]

theorem packedBit_replicate (size index : Nat) :
    packedBit (Array.replicate size 0) index = false := by
  unfold packedBit
  rw [Array.getElem?_replicate]
  split <;> simp

theorem packedBit_append_replicate {words : Array UInt64} {size index : Nat} :
    packedBit (words ++ Array.replicate size 0) index = packedBit words index := by
  unfold packedBit
  rw [Array.getElem?_append]
  split
  · rfl
  · rename_i past
    rw [Array.getElem?_eq_none (show words.size ≤ index / 64 by omega), Array.getElem?_replicate]
    split <;> rfl

/-- Changing one word changes only the bits of that word. -/
theorem packedBit_modify {words : Array UInt64} {place index : Nat} {change : UInt64 → UInt64}
    (present : place < words.size) :
    packedBit (words.modify place change) index =
      if place = index / 64 then (change (words[place]?.getD 0)).toBitVec.getLsbD (index % 64)
      else packedBit words index := by
  unfold packedBit
  rw [Array.getElem?_modify]
  split
  · rename_i same
    rw [← same, Array.getElem?_eq_getElem present]
    rfl
  · rfl

namespace Marks

/-- Is the word at this index marked? Nothing past the end is. -/
def isSet (marks : Marks) (index : Nat) : Bool := packedBit marks.words index

instance : Membership Nat Marks := ⟨fun marks index => marks.isSet index = true⟩

instance (index : Nat) (marks : Marks) : Decidable (index ∈ marks) :=
  inferInstanceAs (Decidable (marks.isSet index = true))

def toList (marks : Marks) : List Nat := (List.range marks.length).filter marks.isSet

def count (marks : Marks) : Nat := marks.words.foldl (fun total word => total + popCount word) 0

instance : DecidableEq Marks := fun left right =>
  decidable_of_iff (left.words = right.words ∧ left.length = right.length) <| by
    cases left; cases right; simp

/-- `length` words, none marked. -/
def clear (length : Nat) : Marks where
  words := Array.replicate (wordsFor length) 0
  length := length
  sized := by simp
  bounded := fun index _ => packedBit_replicate _ index

instance : Inhabited Marks := ⟨clear 0⟩

/-- No bit of the last packed word lies past `length`. -/
def tailClear (words : Array UInt64) (length : Nat) : Bool :=
  words[length / 64]?.getD 0 >>> UInt64.ofNat (length % 64) == 0

theorem tailClear_iff {words : Array UInt64} {length : Nat} (sized : words.size = wordsFor length) :
    tailClear words length = true ↔ ∀ index, length ≤ index → packedBit words index = false := by
  unfold wordsFor at sized
  rw [tailClear, beq_iff_eq, ← UInt64.toBitVec_inj, UInt64.toBitVec_shiftRight,
    show (UInt64.ofNat (length % 64)).toBitVec % 64 = BitVec.ofNat 64 (length % 64) by
      apply BitVec.eq_of_toNat_eq; simp; omega]
  have amount : (BitVec.ofNat 64 (length % 64)).toNat = length % 64 := by simp; omega
  constructor
  · intro zero index past
    by_cases same : index / 64 = length / 64
    · have bit := congrArg (fun shifted => shifted.getLsbD (index % 64 - length % 64)) zero
      simp only [BitVec.ushiftRight_eq', BitVec.getLsbD_ushiftRight, amount] at bit
      rw [show length % 64 + (index % 64 - length % 64) = index % 64 by omega, ← same] at bit
      simpa [packedBit] using bit
    · exact packedBit_past (by omega)
  · intro clear
    apply BitVec.eq_of_getLsbD_eq
    intro bit inside
    simp only [BitVec.ushiftRight_eq', BitVec.getLsbD_ushiftRight, amount]
    by_cases within : length % 64 + bit < 64
    · have found := clear (length + bit) (by omega)
      unfold packedBit at found
      rw [show (length + bit) / 64 = length / 64 by omega,
        show (length + bit) % 64 = length % 64 + bit by omega] at found
      simpa using found
    · rw [BitVec.getLsbD_of_ge _ _ (by omega)]
      simp

/-- Rebuild marks from packed words: their number must be right and no bit may lie past the end. -/
def ofWords? (words : Array UInt64) (length : Nat) : Option Marks :=
  if sized : words.size = wordsFor length then
    if clear : tailClear words length = true then
      some ⟨words, length, sized, (tailClear_iff sized).mp clear⟩
    else none
  else none

/-- Cover `length` words; marks never shrink by growing. -/
def grow (marks : Marks) (length : Nat) : Marks :=
  if longer : marks.length < length then
    { words := marks.words ++ Array.replicate (wordsFor length - marks.words.size) 0
      length := length
      sized := by
        have size := marks.sized
        simp only [Array.size_append, Array.size_replicate]
        unfold wordsFor at *
        omega
      bounded := fun index past => by
        rw [packedBit_append_replicate]
        exact marks.bounded index (by omega) }
  else marks

/-- Forget the words at and past `length`, and their marks. -/
def truncate (marks : Marks) (length : Nat) : Marks :=
  if shorter : length < marks.length then
    { words := (marks.words.extract 0 (wordsFor length)).modify (length / 64)
        (· &&& lowBits (length % 64))
      length := length
      sized := by
        have size := marks.sized
        simp only [Array.size_modify, Array.size_extract]
        unfold wordsFor at *
        omega
      bounded := fun index past => by
        have size := marks.sized
        unfold wordsFor at *
        by_cases part : length % 64 = 0
        · apply packedBit_past
          simp only [Array.size_modify, Array.size_extract]
          omega
        · rw [packedBit_modify (by simp only [Array.size_extract]; omega)]
          split
          · rw [UInt64.toBitVec_and, BitVec.getLsbD_and, getLsbD_lowBits (by omega)]
            have above : ¬ index % 64 < length % 64 := by omega
            simp [above]
          · apply packedBit_past
            simp only [Array.size_extract]
            omega }
  else marks

/-- Mark one of the covered words. -/
def insert (marks : Marks) (index : Nat) (covered : index < marks.length) : Marks where
  words := marks.words.modify (index / 64) (· ||| oneBit (index % 64))
  length := marks.length
  sized := by simp [marks.sized]
  bounded := fun other past => by
    have below := marks.bounded other past
    have size := marks.sized
    unfold wordsFor at size
    rw [packedBit_modify (by omega)]
    split
    · rename_i same
      unfold packedBit at below
      rw [← same] at below
      have different : ¬ index % 64 = other % 64 := by omega
      simp [below, oneBit, different]
    · exact below

/-- Mark a word if it is covered. -/
def add (marks : Marks) (index : Nat) : Marks :=
  if covered : index < marks.length then marks.insert index covered else marks

/-- Mark a word that must be covered. -/
def set (marks : Marks) (index : Nat) : Run Marks :=
  if covered : index < marks.length then .ok (marks.insert index covered) else .error .outOfRange

end Marks
end FrozenHeap
