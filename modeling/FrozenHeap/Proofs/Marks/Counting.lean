import FrozenHeap.Marks.Counted
import FrozenHeap.Proofs.Marks
import Mathlib.Data.Finset.Card
import Mathlib.Data.List.Sort
import Mathlib.Data.Nat.Bitwise

namespace FrozenHeap

section Bits

private theorem live_toBitVec {word : UInt64} (live : word ≠ 0) : word.toBitVec ≠ 0 :=
  fun zero => live (UInt64.toBitVec_inj.mp zero)

private theorem getLsbD_lowestBit {word : UInt64} (live : word ≠ 0) :
    word.toBitVec.getLsbD (lowestBit word) = true :=
  BitVec.getLsbD_true_ctz_of_ne_zero (live_toBitVec live)

private theorem lowestBit_le {word : UInt64} {bit : Nat}
    (marked : word.toBitVec.getLsbD bit = true) :
    lowestBit word ≤ bit := by
  refine Nat.le_of_not_lt fun below => ?_
  rw [BitVec.getLsbD_false_of_lt_ctz below] at marked
  cases marked

/-- What lies below the lowest set bit is clear, so that the bit is all that is left of the
word there. -/
theorem mod_lowestBit {word : UInt64} (live : word ≠ 0) :
    word.toNat % 2 ^ (lowestBit word + 1) = 2 ^ lowestBit word := by
  apply Nat.eq_of_testBit_eq
  intro bit
  rw [Nat.testBit_mod_two_pow, Nat.testBit_two_pow]
  by_cases same : lowestBit word = bit
  · subst same
    have marked : word.toNat.testBit (lowestBit word) = true := getLsbD_lowestBit live
    simp [marked]
  · by_cases marked : word.toNat.testBit bit = true
    · have above : lowestBit word ≤ bit := lowestBit_le marked
      simp only [same, decide_false, marked, Bool.and_true, decide_eq_false_iff_not]
      omega
    · simp [same, marked]

theorem getLsbD_and_sub_one {word : UInt64} (live : word ≠ 0) (bit : Nat) :
    (word &&& (word - 1)).toBitVec.getLsbD bit =
      (word.toBitVec.getLsbD bit && decide (bit ≠ lowestBit word)) := by
  have low := mod_lowestBit live
  have split := Nat.div_add_mod word.toNat (2 ^ (lowestBit word + 1))
  rw [low] at split
  have positive : 0 < 2 ^ lowestBit word := Nat.two_pow_pos _
  have double : 2 ^ lowestBit word < 2 ^ (lowestBit word + 1) :=
    Nat.pow_lt_pow_right (by decide) (Nat.lt_succ_self _)
  have one : (1 : UInt64) ≤ word := by
    rw [UInt64.le_iff_toNat_le, UInt64.toNat_one]
    omega
  show ((word &&& (word - 1)).toNat).testBit bit = (word.toNat.testBit bit && _)
  rw [UInt64.toNat_and, Nat.testBit_and, UInt64.toNat_sub_of_le _ _ one, UInt64.toNat_one, ← split,
    Nat.add_sub_assoc positive, Nat.testBit_two_pow_mul_add _ double,
    Nat.testBit_two_pow_mul_add _ (show 2 ^ lowestBit word - 1 < 2 ^ (lowestBit word + 1) by omega)]
  by_cases here : bit < lowestBit word + 1
  · rw [if_pos here, if_pos here, Nat.testBit_two_pow, Nat.testBit_two_pow_sub_one]
    by_cases same : lowestBit word = bit
    · simp [same]
    · simp [same]
  · have other : bit ≠ lowestBit word := by omega
    rw [if_neg here, if_neg here, Bool.and_self, decide_eq_true other, Bool.and_true]

private theorem mem_setBits {word : UInt64} {bit : Nat} :
    bit ∈ setBits word ↔ word.toBitVec.getLsbD bit = true := by
  fun_induction setBits word with
  | case1 => simp
  | case2 word live ih =>
    rw [List.mem_cons, ih, getLsbD_and_sub_one live, Bool.and_eq_true, decide_eq_true_eq]
    by_cases same : bit = lowestBit word
    · simp [same, getLsbD_lowestBit live]
    · simp [same]

private theorem pairwise_setBits (word : UInt64) : (setBits word).Pairwise (· < ·) := by
  fun_induction setBits word with
  | case1 => exact .nil
  | case2 word live ih =>
    refine .cons (fun bit member => ?_) ih
    have kept := mem_setBits.mp member
    rw [getLsbD_and_sub_one live, Bool.and_eq_true, decide_eq_true_eq] at kept
    have least := lowestBit_le kept.1
    omega

theorem shiftLeft_one {bit : Nat} (small : bit < 64) :
    (1 : UInt64) <<< UInt64.ofNat bit = oneBit bit := by
  apply UInt64.toNat.inj
  have power : 2 ^ bit < 2 ^ 64 := Nat.pow_lt_pow_right (by decide) small
  show _ = (BitVec.twoPow 64 bit).toNat
  rw [UInt64.toNat_shiftLeft, UInt64.toNat_ofNat', Nat.mod_eq_of_lt (a := bit) (by omega),
    Nat.mod_eq_of_lt small, UInt64.toNat_one, Nat.one_shiftLeft, BitVec.toNat_twoPow]

private theorem toNat_oneBit {bit : Nat} (small : bit < 64) : (oneBit bit).toNat = 2 ^ bit := by
  have power : 2 ^ bit < 2 ^ 64 := Nat.pow_lt_pow_right (by decide) small
  show (BitVec.twoPow 64 bit).toNat = _
  rw [BitVec.toNat_twoPow, Nat.mod_eq_of_lt power]

private theorem oneBit_sub_one {bit : Nat} (small : bit < 64) : oneBit bit - 1 = lowBits bit := by
  have power : 2 ^ bit < 2 ^ 64 := Nat.pow_lt_pow_right (by decide) small
  have positive : 0 < 2 ^ bit := Nat.two_pow_pos bit
  apply UInt64.toBitVec_inj.mp
  apply BitVec.eq_of_getLsbD_eq
  intro other _
  rw [getLsbD_lowBits (Nat.le_of_lt small)]
  show ((oneBit bit - 1).toNat).testBit other = _
  have one : (1 : UInt64) ≤ oneBit bit := by
    rw [UInt64.le_iff_toNat_le, toNat_oneBit small, UInt64.toNat_one]
    exact positive
  rw [UInt64.toNat_sub_of_le _ _ one, toNat_oneBit small, UInt64.toNat_one,
    Nat.testBit_two_pow_sub_one]

private theorem and_oneBit_eq_zero_iff {word : UInt64} {bit : Nat} (small : bit < 64) :
    word &&& oneBit bit = 0 ↔ word.toBitVec.getLsbD bit = false := by
  rw [← UInt64.toNat_inj, UInt64.toNat_and, toNat_oneBit small, UInt64.toNat_zero, Nat.and_two_pow]
  show _ ↔ word.toNat.testBit bit = false
  cases word.toNat.testBit bit <;> simp

private theorem shiftRight_and_one {word : UInt64} {bit : Nat} (small : bit < 64) :
    ((word >>> UInt64.ofNat bit) &&& 1 != 0) = word.toBitVec.getLsbD bit := by
  have moved : (word >>> UInt64.ofNat bit &&& 1).toNat = word.toNat >>> bit % 2 := by
    rw [UInt64.toNat_and, UInt64.toNat_shiftRight, UInt64.toNat_ofNat',
      Nat.mod_eq_of_lt (a := bit) (by omega), Nat.mod_eq_of_lt small, UInt64.toNat_one,
      Nat.and_one_is_mod]
  show _ = word.toNat.testBit bit
  rw [Nat.testBit_eq_decide_div_mod_eq, ← Nat.shiftRight_eq_div_pow, Bool.eq_iff_iff, bne_iff_ne,
    ne_eq, ← UInt64.toNat_inj, moved, UInt64.toNat_zero, decide_eq_true_eq]
  omega

end Bits

namespace Marks

def members (marks : Marks) : Finset Nat := marks.toList.toFinset

theorem mem_members {marks : Marks} {index : Nat} :
    index ∈ marks.members ↔ marks.isSet index = true := by
  rw [members, List.mem_toFinset, mem_toList]

private theorem pairwise_toList (marks : Marks) : marks.toList.Pairwise (· < ·) :=
  List.pairwise_lt_range.filter _

theorem count_eq_card (marks : Marks) : marks.count = marks.members.card := by
  rw [count_eq, members, List.toFinset_card_of_nodup (marks.pairwise_toList.imp Nat.ne_of_lt)]

def counted (marks : Marks) : CountedMarks := ⟨marks.words, marks.length, marks.count⟩

theorem members_clear (length : Nat) : (clear length).members = ∅ := by
  apply Finset.eq_empty_of_forall_notMem
  intro index member
  rw [mem_members, isSet_clear] at member
  cases member

theorem members_grow (marks : Marks) (length : Nat) :
    (marks.grow length).members = marks.members := by
  ext index
  rw [mem_members, mem_members, isSet_grow]

theorem members_truncate (marks : Marks) (length : Nat) :
    (marks.truncate length).members = marks.members.filter (· < length) := by
  ext index
  rw [Finset.mem_filter, mem_members, mem_members, isSet_truncate, Bool.and_eq_true,
    decide_eq_true_eq, and_comm]

theorem members_insert (marks : Marks) {index : Nat} (covered : index < marks.length) :
    (marks.insert index covered).members = Insert.insert index marks.members := by
  ext other
  rw [Finset.mem_insert, mem_members, mem_members, isSet_insert, Bool.or_eq_true,
    decide_eq_true_eq]

/-- Marks are settled by their length and the set of marked indexes. -/
theorem ext_members {marks others : Marks} (length : marks.length = others.length)
    (same : marks.members = others.members) : marks = others := by
  refine ext_isSet length fun index => ?_
  rw [Bool.eq_iff_iff, ← mem_members, ← mem_members, same]

theorem counted_clear (length : Nat) : (clear length).counted = .clear length := by
  have none : (clear length).count = 0 := by rw [count_eq_card, members_clear, Finset.card_empty]
  rw [counted, none]
  rfl

theorem counted_grow (marks : Marks) (length : Nat) :
    (marks.grow length).counted = marks.counted.grow length := by
  by_cases longer : marks.length < length
  · have size := marks.sized
    have same : (marks.grow length).count = marks.count := by
      rw [count_eq_card, count_eq_card, members_grow]
    have kept : marks.words.take (wordsFor length) = marks.words := by
      unfold wordsFor at *
      rw [Array.take_eq_extract, Array.extract_eq_self_of_le (by omega)]
    rw [counted, same, CountedMarks.grow, if_pos (show marks.counted.length < length from longer)]
    simp only [counted, kept, grow, dif_pos longer]
  · rw [grow, dif_neg longer, CountedMarks.grow,
      if_neg (show ¬ marks.counted.length < length from longer)]

private theorem words_truncate (marks : Marks) {length : Nat} (shorter : length < marks.length) :
    (marks.truncate length).words =
      if length % 64 = 0 then marks.words.take (wordsFor length)
      else (marks.words.take (wordsFor length)).modify
        ((marks.words.take (wordsFor length)).size - 1)
          (· &&& ((1 <<< UInt64.ofNat (length % 64)) - 1)) := by
  have size := marks.sized
  have bit : length % 64 < 64 := Nat.mod_lt _ (by decide)
  have kept : (marks.words.take (wordsFor length)).size = wordsFor length := by
    unfold wordsFor at *
    rw [Array.take_eq_extract, Array.size_extract]
    omega
  rw [truncate, dif_pos shorter, kept, shiftLeft_one bit, oneBit_sub_one bit]
  simp only [← Array.take_eq_extract]
  unfold wordsFor at *
  split
  · rename_i whole
    apply Array.ext_getElem?
    intro place
    rw [Array.getElem?_modify]
    split
    · rename_i last
      rw [Array.getElem?_eq_none (show _ ≤ place by omega)]
      rfl
    · rfl
  · rename_i part
    rw [show (length + 63) / 64 - 1 = length / 64 by omega]

theorem counted_truncate (marks : Marks) (length : Nat) :
    (marks.truncate length).counted = marks.counted.truncate length := by
  by_cases shorter : length < marks.length
  · have words := marks.words_truncate shorter
    have covered : (marks.truncate length).length = length := by
      rw [length_truncate]
      omega
    rw [counted, count, covered, words, CountedMarks.truncate,
      if_neg (show ¬ marks.counted.length ≤ length from Nat.not_le_of_lt shorter)]
    rfl
  · rw [truncate, dif_neg shorter, CountedMarks.truncate,
      if_pos (show marks.counted.length ≤ length from Nat.le_of_not_lt shorter)]

/-- The packed word that an index within the length lies in. -/
theorem entryAt_words (marks : Marks) {index : Nat} (covered : index < marks.length) :
    ∃ word, marks.words[index / 64]? = some word ∧ entryAt marks.words (index / 64) = .ok word ∧
      marks.isSet index = word.toBitVec.getLsbD (index % 64) := by
  have size := marks.sized
  unfold wordsFor at size
  have inside : index / 64 < marks.words.size := by omega
  refine ⟨marks.words[index / 64], Array.getElem?_eq_getElem inside,
    entryAt_eq_ok_iff.mpr (Array.getElem?_eq_getElem inside), ?_⟩
  rw [isSet, packedBit, Array.getElem?_eq_getElem inside, Option.getD_some]

theorem counted_set (marks : Marks) (index : Nat) :
    marks.counted.set index = (marks.set index).map counted := by
  by_cases covered : index < marks.length
  · obtain ⟨word, found, entry, bit⟩ := marks.entryAt_words covered
    have small : index % 64 < 64 := Nat.mod_lt _ (by decide)
    have inserted := marks.members_insert covered
    rw [set, dif_pos covered, CountedMarks.set,
      if_neg (show ¬ marks.counted.length ≤ index from Nat.not_le_of_lt covered)]
    simp only [counted, entry, bind, Except.bind, pure, Except.pure, shiftLeft_one small,
      and_oneBit_eq_zero_iff small, ← bit, Except.map]
    by_cases marked : marks.isSet index = true
    · -- The bit is set already, so that nothing changes.
      have same : marks.insert index covered = marks := by
        refine ext_members rfl ?_
        rw [inserted, Finset.insert_eq_of_mem (mem_members.mpr marked)]
      rw [marked, if_neg Bool.noConfusion, same]
    · rw [Bool.not_eq_true] at marked
      have more : (marks.insert index covered).count = marks.count + 1 := by
        rw [count_eq_card, count_eq_card, inserted, Finset.card_insert_of_notMem]
        rw [mem_members, marked]
        exact Bool.false_ne_true
      have words : (marks.insert index covered).words =
          marks.words.setIfInBounds (index / 64) (word ||| oneBit (index % 64)) := by
        apply Array.ext_getElem?
        intro place
        rw [Array.getElem?_setIfInBounds, insert, Array.getElem?_modify]
        split
        · rename_i here
          rw [← here, found, if_pos (Array.getElem?_eq_some_iff.mp found).1]
          rfl
        · rfl
      rw [marked, if_pos rfl, more, words]
      rfl
  · rw [set, dif_neg covered, CountedMarks.set,
      if_pos (show marks.counted.length ≤ index from Nat.le_of_not_lt covered)]
    rfl

theorem counted_ofWords? (words : Array UInt64) (length : Nat) :
    CountedMarks.ofWords? words length = (ofWords? words length).map counted := by
  by_cases sized : words.size = wordsFor length
  · have size := sized
    unfold wordsFor at size
    have rebuilt (clear : tailClear words length = true) :
        (ofWords? words length).map counted =
          some ⟨words, length, CountedMarks.total words⟩ := by
      rw [ofWords?, dif_pos sized, dif_pos clear]
      rfl
    rw [CountedMarks.ofWords?, if_neg (not_not.mpr sized)]
    by_cases whole : length % 64 = 0
    · have past : words[length / 64]? = none := Array.getElem?_eq_none (by omega)
      rw [if_pos whole, rebuilt (by simp [tailClear, past])]
    · have inside : length / 64 < words.size := by omega
      have last : words.back? = some words[length / 64] := by
        rw [Array.back?_eq_getElem?, show words.size - 1 = length / 64 by omega,
          Array.getElem?_eq_getElem inside]
      have tail : tailClear words length =
          (words[length / 64] >>> UInt64.ofNat (length % 64) == 0) := by
        rw [tailClear, Array.getElem?_eq_getElem inside, Option.getD_some]
      rw [if_neg whole, last]
      simp only [bind, Option.bind]
      by_cases clear : words[length / 64] >>> UInt64.ofNat (length % 64) = 0
      · rw [if_neg (not_not.mpr clear), rebuilt (by rw [tail, beq_iff_eq]; exact clear)]
      · rw [if_pos clear, ofWords?, dif_pos sized, dif_neg (by rw [tail, beq_iff_eq]; exact clear)]
        rfl
  · rw [CountedMarks.ofWords?, if_pos sized, ofWords?, dif_neg sized]
    rfl

theorem words_of_ofWords? {words : Array UInt64} {length : Nat} {marks : Marks}
    (packed : ofWords? words length = some marks) : marks.words = words := by
  unfold ofWords? at packed
  split at packed
  · split at packed
    · cases packed
      rfl
    · cases packed
  · cases packed

theorem isSet_counted (marks : Marks) (index : Nat) :
    marks.counted.isSet index = .ok (marks.isSet index) := by
  by_cases covered : index < marks.length
  · obtain ⟨word, _, entry, bit⟩ := marks.entryAt_words covered
    rw [CountedMarks.isSet, if_pos (show index < marks.counted.length from covered), bit,
      ← shiftRight_and_one (Nat.mod_lt _ (by decide))]
    simp only [counted, entry, bind, Except.bind]
    rfl
  · rw [CountedMarks.isSet, if_neg (show ¬ index < marks.counted.length from covered),
      marks.isSet_past (Nat.le_of_not_lt covered)]
    rfl

end Marks

namespace CountedMarks

theorem mem_indexes {marks : CountedMarks} {index : Nat} :
    index ∈ marks.indexes ↔ packedBit marks.words index = true := by
  unfold indexes packedBit
  rw [List.mem_flatMap]
  constructor
  · rintro ⟨place, inside, member⟩
    obtain ⟨bit, marked, rfl⟩ := List.mem_map.mp member
    rw [mem_setBits] at marked
    have small : bit < 64 := BitVec.lt_of_getLsbD marked
    rwa [show (64 * place + bit) / 64 = place by omega, show (64 * place + bit) % 64 = bit by omega]
  · intro marked
    refine ⟨index / 64, List.mem_range.mpr (Nat.lt_of_not_le fun past => ?_),
      List.mem_map.mpr ⟨index % 64, mem_setBits.mpr marked, Nat.div_add_mod index 64⟩⟩
    rw [Array.getElem?_eq_none past] at marked
    simp at marked

theorem pairwise_indexes (marks : CountedMarks) : marks.indexes.Pairwise (· < ·) := by
  rw [indexes, List.pairwise_flatMap]
  constructor
  · intro place _
    rw [List.pairwise_map]
    exact (pairwise_setBits _).imp fun less => Nat.add_lt_add_left less _
  · refine List.pairwise_lt_range.imp fun {place other} before => ?_
    intro index member another present
    obtain ⟨bit, marked, rfl⟩ := List.mem_map.mp member
    obtain ⟨last, _, rfl⟩ := List.mem_map.mp present
    have small : bit < 64 := BitVec.lt_of_getLsbD (mem_setBits.mp marked)
    omega

end CountedMarks

/-- Clearing the lowest bit again and again finds the marked indexes in order. -/
theorem Marks.indexes_counted (marks : Marks) : marks.counted.indexes = marks.toList :=
  marks.counted.pairwise_indexes.eq_of_mem_iff marks.pairwise_toList fun _ =>
    CountedMarks.mem_indexes.trans mem_toList.symm

end FrozenHeap
