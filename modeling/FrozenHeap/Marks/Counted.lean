import FrozenHeap.Marks

/-!
Marks that are counted as they are set. Beside the packed words goes the number of set bits: it is
carried along where a bit is set, and taken anew where words are dropped. The marked indexes are
found by clearing the lowest bit of a word again and again.
-/
namespace FrozenHeap

/-- The position of the lowest set bit. -/
def lowestBit (word : UInt64) : Nat := word.toBitVec.ctz.toNat

/-- The positions of the set bits from the lowest up. -/
def setBits (word : UInt64) : List Nat :=
  if word = 0 then [] else lowestBit word :: setBits (word &&& (word - 1))
termination_by word.toNat
decreasing_by
  rename_i live
  have positive : 0 < word.toNat := Nat.pos_of_ne_zero fun zero => live (UInt64.toNat.inj zero)
  have one : (1 : UInt64) ≤ word := UInt64.le_iff_toNat_le.mpr positive
  have less : word.toNat &&& (word.toNat - 1) ≤ word.toNat - 1 := Nat.and_le_right
  rw [UInt64.toNat_and, UInt64.toNat_sub_of_le _ _ one, UInt64.toNat_one]
  omega

structure CountedMarks where
  words : Array UInt64
  length : Nat
  count : Nat
  deriving DecidableEq, Repr

namespace CountedMarks

def total (words : Array UInt64) : Nat := words.foldl (fun total word => total + popCount word) 0

def clear (length : Nat) : CountedMarks := ⟨Array.replicate (wordsFor length) 0, length, 0⟩

instance : Inhabited CountedMarks := ⟨clear 0⟩

/-- Rebuild marks from packed words: their number must be right, and the last of them must have no
bit past the end. -/
def ofWords? (words : Array UInt64) (length : Nat) : Option CountedMarks :=
  if words.size ≠ wordsFor length then none
  else if length % 64 = 0 then some ⟨words, length, total words⟩
  else do
    let last ← words.back?
    if last >>> UInt64.ofNat (length % 64) ≠ 0 then none
    else some ⟨words, length, total words⟩

/-- Cover `length` words; marks never shrink by growing. -/
def grow (marks : CountedMarks) (length : Nat) : CountedMarks :=
  if marks.length < length then
    { marks with
      words := marks.words.take (wordsFor length) ++
        Array.replicate (wordsFor length - marks.words.size) 0
      length := length }
  else marks

/-- Forget the words at and past `length`, and their marks. -/
def truncate (marks : CountedMarks) (length : Nat) : CountedMarks :=
  if marks.length ≤ length then marks
  else
    let kept := marks.words.take (wordsFor length)
    let words := if length % 64 = 0 then kept
      else kept.modify (kept.size - 1) (· &&& ((1 <<< UInt64.ofNat (length % 64)) - 1))
    ⟨words, length, total words⟩

/-- Mark a word that must be covered. It is counted if it was not marked before. -/
def set (marks : CountedMarks) (index : Nat) : Run CountedMarks :=
  if marks.length ≤ index then .error .outOfRange
  else do
    let mask := 1 <<< UInt64.ofNat (index % 64)
    let word ← entryAt marks.words (index / 64)
    if word &&& mask = 0 then
      return { marks with
        words := marks.words.setIfInBounds (index / 64) (word ||| mask)
        count := marks.count + 1 }
    else return marks

/-- Is the word at this index marked? Nothing past the end is. -/
def isSet (marks : CountedMarks) (index : Nat) : Run Bool :=
  if index < marks.length then do
    let word ← entryAt marks.words (index / 64)
    return (word >>> UInt64.ofNat (index % 64)) &&& 1 != 0
  else return false

def indexes (marks : CountedMarks) : List Nat :=
  (List.range marks.words.size).flatMap fun place =>
    (setBits (marks.words[place]?.getD 0)).map (64 * place + ·)

end CountedMarks
end FrozenHeap
