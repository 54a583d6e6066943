import FrozenHeap.Marks

namespace FrozenHeap.Marks

theorem isSet_past (marks : Marks) {index : Nat} (past : marks.length ≤ index) :
    marks.isSet index = false := marks.bounded index past

theorem lt_length_of_isSet {marks : Marks} {index : Nat} (marked : marks.isSet index = true) :
    index < marks.length := by
  by_cases inside : index < marks.length
  · exact inside
  · simp [marks.isSet_past (Nat.le_of_not_lt inside)] at marked

@[simp] theorem isSet_clear (length index : Nat) : (clear length).isSet index = false :=
  packedBit_replicate _ index

@[simp] theorem length_clear (length : Nat) : (clear length).length = length := rfl

@[simp] theorem isSet_grow (marks : Marks) (length index : Nat) :
    (marks.grow length).isSet index = marks.isSet index := by
  unfold grow
  split
  · exact packedBit_append_replicate
  · rfl

@[simp] theorem length_grow (marks : Marks) (length : Nat) :
    (marks.grow length).length = max marks.length length := by
  unfold grow
  split
  · simp only
    omega
  · omega

theorem isSet_insert (marks : Marks) (index : Nat) (covered : index < marks.length) (other : Nat) :
    (marks.insert index covered).isSet other = (decide (other = index) || marks.isSet other) := by
  have size := marks.sized
  unfold wordsFor at size
  unfold isSet insert
  rw [packedBit_modify (by omega)]
  split
  · rename_i word
    have position : (index % 64 = other % 64) ↔ other = index := by omega
    have inside : index % 64 < 64 := Nat.mod_lt _ (by decide)
    unfold packedBit
    rw [← word]
    simp [oneBit, position, inside, Bool.or_comm]
  · have different : other ≠ index := by
      intro same
      subst same
      contradiction
    simp [different]

@[simp] theorem length_add (marks : Marks) (index : Nat) :
    (marks.add index).length = marks.length := by
  unfold add
  split <;> rfl

theorem isSet_add (marks : Marks) {index : Nat} (covered : index < marks.length) (other : Nat) :
    (marks.add index).isSet other = (decide (other = index) || marks.isSet other) := by
  rw [add, dif_pos covered, isSet_insert]

theorem length_truncate (marks : Marks) (length : Nat) :
    (marks.truncate length).length = min marks.length length := by
  unfold truncate
  split
  · simp only
    omega
  · omega

/-- Cutting marks back keeps the marks below the new length. -/
theorem isSet_truncate (marks : Marks) (length index : Nat) :
    (marks.truncate length).isSet index = (decide (index < length) && marks.isSet index) := by
  by_cases below : index < length
  · simp only [below, decide_true, Bool.true_and]
    unfold truncate
    split
    · have size := marks.sized
      unfold wordsFor at size
      have word : (marks.words.extract 0 (wordsFor length))[index / 64]? =
          marks.words[index / 64]? := by
        unfold wordsFor
        rw [Array.getElem?_extract_of_lt (by omega)]
        simp
      unfold isSet packedBit
      rw [Array.getElem?_modify, word]
      split
      · rename_i last
        have kept : index % 64 < length % 64 := by omega
        cases marks.words[index / 64]? with
        | none => rfl
        | some packed => simp [getLsbD_lowBits (show length % 64 ≤ 64 by omega), kept]
      · rfl
    · rfl
  · simp only [below, decide_false, Bool.false_and]
    apply isSet_past
    rw [length_truncate]
    omega

theorem mem_toList {marks : Marks} {index : Nat} :
    index ∈ marks.toList ↔ marks.isSet index = true := by
  rw [toList, List.mem_filter, List.mem_range]
  exact ⟨fun both => both.2, fun marked => ⟨lt_length_of_isSet marked, marked⟩⟩

private theorem foldl_popCount (words : Array UInt64) {size : Nat} (inside : size ≤ words.size) :
    (words.toList.take size).foldl (fun total word => total + popCount word) 0 =
      (List.range (64 * size)).countP (packedBit words) := by
  induction size with
  | zero => rfl
  | succ size ih =>
    have word : popCount words[size] =
        (List.range 64).countP (packedBit words ∘ (64 * size + ·)) := by
      apply List.countP_congr
      intro bit below
      have small := List.mem_range.mp below
      rw [Function.comp_apply, packedBit, show (64 * size + bit) / 64 = size by omega,
        show (64 * size + bit) % 64 = bit by omega, Array.getElem?_eq_getElem inside]
      rfl
    rw [List.take_succ_eq_append_getElem (show size < words.toList.length from inside),
      List.foldl_append,
      ih (Nat.le_of_succ_le inside), Nat.mul_succ, List.range_add, List.countP_append,
      List.countP_map, ← word]
    rfl

theorem count_eq (marks : Marks) : marks.count = marks.toList.length := by
  have size := marks.sized
  unfold wordsFor at size
  obtain ⟨rest, bits⟩ : ∃ rest, 64 * marks.words.size = marks.length + rest :=
    ⟨64 * marks.words.size - marks.length, by omega⟩
  have none_past : (List.range rest).countP (packedBit marks.words ∘ (marks.length + ·)) = 0 := by
    rw [List.countP_eq_zero]
    intro index _
    rw [Function.comp_apply, marks.bounded _ (Nat.le_add_right _ _)]
    exact Bool.false_ne_true
  have counted := foldl_popCount marks.words (Nat.le_refl _)
  rw [List.take_of_length_le (by simp), Array.foldl_toList, bits, List.range_add,
    List.countP_append, List.countP_map, none_past, Nat.add_zero] at counted
  rw [count, counted, toList, List.countP_eq_length_filter]
  rfl

/-- Marks are settled by their length and the indexes that are marked. -/
theorem ext_isSet {marks others : Marks} (length : marks.length = others.length)
    (same : ∀ index, marks.isSet index = others.isSet index) : marks = others := by
  have size : marks.words.size = others.words.size := by
    rw [marks.sized, others.sized, length]
  have words : marks.words = others.words := by
    apply Array.ext size
    intro word inside within
    apply UInt64.toBitVec_inj.mp
    apply BitVec.eq_of_getLsbD_eq
    intro bit small
    have agree := same (64 * word + bit)
    unfold isSet packedBit at agree
    rw [show (64 * word + bit) / 64 = word by omega, show (64 * word + bit) % 64 = bit by omega,
      Array.getElem?_eq_getElem inside, Array.getElem?_eq_getElem within] at agree
    exact agree
  cases marks
  cases others
  cases words
  cases length
  rfl

theorem length_of_ofWords? {words : Array UInt64} {length : Nat} {marks : Marks}
    (packed : ofWords? words length = some marks) : marks.length = length := by
  unfold ofWords? at packed
  split at packed
  · split at packed
    · cases packed
      rfl
    · cases packed
  · cases packed

theorem ofWords?_words (marks : Marks) : ofWords? marks.words marks.length = some marks := by
  rw [ofWords?, dif_pos marks.sized, dif_pos ((tailClear_iff marks.sized).mpr marks.bounded)]

end FrozenHeap.Marks
