import FrozenHeap.Archive.Measuring
import FrozenHeap.Proofs.Archive.Accepted
import FrozenHeap.Proofs.Archive.Truncation
import FrozenHeap.Proofs.Narrowing
import FrozenHeap.Proofs.RecordTable.Checking
import FrozenHeap.Proofs.RecordTable.RoundTrip

namespace FrozenHeap

private theorem remainder_ok {n divisor : Nat} (positive : divisor ≠ 0) :
    remainder n divisor = .ok (n % divisor) := if_neg positive

private theorem ceiling_eq {length : Nat} (small : wordsFor length < UInt64.size) :
    ceiling length 64 = .ok (wordsFor length) := by
  unfold wordsFor at small
  rw [ceiling, remainder_ok (by decide)]
  simp only [bind, Except.bind, pure, Except.pure, wordsFor]
  by_cases rest : 0 < length % 64
  · rw [if_pos rest, sized_ok (by omega)]
    congr 1
    omega
  · rw [if_neg rest]
    congr 1
    omega

/-- Moving bits up multiplies, but for the bits that are lost. -/
theorem shiftUp_ofNat {shift n : Nat} (narrow : shift < 64) (small : n < UInt64.size) :
    shiftUp (UInt64.ofNat n) shift = .ok (UInt64.ofNat (n * stride shift)) := by
  rw [shiftUp, if_pos narrow]
  congr 1
  apply UInt64.toNat.inj
  unfold UInt64.size at small
  rw [UInt64.toNat_shiftLeft, UInt64.toNat_ofNat', UInt64.toNat_ofNat', UInt64.toNat_ofNat',
    Nat.mod_eq_of_lt small, Nat.mod_eq_of_lt (a := shift) (by omega), Nat.mod_eq_of_lt narrow,
    Nat.shiftLeft_eq, stride, Nat.one_shiftLeft]

theorem shiftDown_eq {shift : Nat} (narrow : shift < 64) (word : UInt64) :
    shiftDown word shift = .ok (UInt64.ofNat (word.toNat / stride shift)) := by
  have below := Nat.lt_of_le_of_lt (Nat.div_le_self word.toNat (stride shift)) word.toNat_lt
  rw [shiftDown, if_pos narrow]
  congr 1
  apply UInt64.toNat.inj
  rw [UInt64.toNat_shiftRight, UInt64.toNat_ofNat', UInt64.toNat_ofNat', Nat.mod_eq_of_lt below,
    Nat.mod_eq_of_lt (a := shift) (by omega), Nat.mod_eq_of_lt narrow, Nat.shiftRight_eq_div_pow,
    stride, Nat.one_shiftLeft]

namespace Narrowing

private theorem stride_lt {shift : Nat} (narrow : shift < 64) : stride shift < UInt64.size := by
  rw [stride, Nat.one_shiftLeft]
  exact Nat.pow_lt_pow_right (by decide) narrow

theorem low_ok {shift : Nat} (narrow : shift < 64) :
    subWord (UInt64.ofNat (stride shift)) 1 = .ok (UInt64.ofNat (stride shift - 1)) := by
  have positive := stride_pos shift
  have small := stride_lt narrow
  unfold UInt64.size at small
  rw [subWord_eq_ok_iff, UInt64.toNat_ofNat', UInt64.toNat_ofNat', Nat.mod_eq_of_lt small,
    Nat.mod_eq_of_lt (by omega), UInt64.toNat_one]
  omega

theorem and_low_eq_zero_iff (base : UInt64) {shift : Nat} (narrow : shift < 64) :
    base &&& UInt64.ofNat (stride shift - 1) = 0 ↔ base.toNat % stride shift = 0 := by
  have below : stride shift - 1 < 2 ^ 64 := Nat.lt_of_le_of_lt (Nat.sub_le _ 1) (stride_lt narrow)
  rw [← UInt64.toNat_inj, UInt64.toNat_and, UInt64.toNat_ofNat', Nat.mod_eq_of_lt below, stride,
    Nat.one_shiftLeft, Nat.and_two_pow_sub_one_eq_mod, UInt64.toNat_zero]

theorem measure_eq (base : UInt64) (shift : Nat) : measure base shift = .ok (of? base shift) := by
  by_cases large : maxShift < shift
  · rw [measure, if_pos large, of?, dif_neg fun fit => absurd fit.1 (Nat.not_le_of_lt large)]
  have small : shift ≤ maxShift := Nat.le_of_not_lt large
  have narrow : shift < 64 := Nat.lt_of_le_of_lt small (by decide)
  have step : shiftUp 1 shift = .ok (UInt64.ofNat (1 * stride shift)) :=
    shiftUp_ofNat narrow (by decide)
  have reach := shiftUp_ofNat narrow (show UInt32.size - 1 < UInt64.size by decide)
  have far : (UInt64.ofNat ((UInt32.size - 1) * stride shift)).toNat =
      (UInt32.size - 1) * stride shift := by
    rcases shift_cases small with rfl | rfl | rfl | rfl <;> rfl
  rw [measure, if_neg large, step, Nat.one_mul]
  simp only [bind, Except.bind, low_ok narrow, reach, far, pure, Except.pure, ne_eq,
    and_low_eq_zero_iff base narrow]
  by_cases aligned : base.toNat % stride shift = 0
  · rw [if_neg (not_not.mpr aligned)]
    split
    · rename_i past
      rw [of?, dif_neg fun fit => absurd fit.2.2 (Nat.not_lt_of_le past)]
    · rfl
  · rw [if_pos aligned, of?, dif_neg fun fit => aligned fit.2.1]

end Narrowing

namespace Marks

private theorem popCount_le (word : UInt64) : popCount word ≤ 64 := by
  have bound := List.countP_le_length (p := (word.toBitVec.getLsbD ·)) (l := List.range 64)
  rwa [List.length_range] at bound

private theorem tally_ok {words : List UInt64} {total : Nat}
    (room : total + 64 * words.length < UInt64.size) :
    words.foldlM (fun total word => FrozenHeap.sized (total + popCount word)) total =
      .ok (words.foldl (fun total word => total + popCount word) total) := by
  induction words generalizing total with
  | nil => rfl
  | cons word rest ih =>
    have bound := popCount_le word
    rw [List.length_cons] at room
    rw [List.foldlM_cons, sized_ok (by omega)]
    exact ih (by omega)

private theorem strays_eq {words : Array UInt64} {length : Nat}
    (sized : words.size = wordsFor length) :
    strays words length = .ok (!tailClear words length) := by
  unfold wordsFor at sized
  rw [strays, remainder_ok (by decide)]
  simp only [bind, Except.bind, pure, Except.pure]
  by_cases whole : length % 64 = 0
  · have past : words[length / 64]? = none := Array.getElem?_eq_none (by omega)
    simp [whole, tailClear, past]
  · have inside : length / 64 < words.size := by omega
    have last : words.back? = some words[length / 64] := by
      rw [Array.back?_eq_getElem?, show words.size - 1 = length / 64 by omega,
        Array.getElem?_eq_getElem inside]
    have distance : length % 64 < 64 := Nat.mod_lt _ (by decide)
    simp only [if_neg whole, last, shiftDown, if_pos distance, tailClear,
      Array.getElem?_eq_getElem inside, Option.getD_some]
    rfl

/-- Marks are rebuilt from packed words as without machine words, and their bits are counted. -/
theorem measure_eq {words : Array UInt64} {length : Nat} (small : length ≤ Archive.maxWords) :
    measure words length = .ok ((ofWords? words length).map fun marks => (marks, marks.count)) := by
  unfold Archive.maxWords UInt32.size at small
  have needed : ceiling length 64 = .ok (wordsFor length) := ceiling_eq (by
    unfold wordsFor UInt64.size
    omega)
  rw [measure, needed]
  simp only [bind, Except.bind, pure, Except.pure]
  by_cases sized : words.size = wordsFor length
  · rw [if_neg (not_not.mpr sized), strays_eq sized]
    cases clear : tailClear words length with
    | false => simp [ofWords?, clear]
    | true =>
      have room : 0 + 64 * words.toList.length < UInt64.size := by
        rw [Array.length_toList, sized]
        unfold wordsFor UInt64.size
        omega
      simp only [Bool.not_true, Bool.false_eq_true, if_false, tally, tally_ok room]
      rw [ofWords?, dif_pos sized, dif_pos clear, Option.map_some, Option.map_some, count,
        ← Array.foldl_toList]
  · rw [if_pos sized, ofWords?, dif_neg sized]
    rfl

end Marks

namespace Reader

def wordsIn (bytes : List UInt8) (count : Nat) : List UInt64 :=
  (List.range count).map fun index =>
    UInt64.ofNat (LittleEndian.decode ((bytes.drop (wordBytes * index)).take wordBytes))

private theorem wordsIn_succ (bytes : List UInt8) (count : Nat) : wordsIn bytes (count + 1) =
    UInt64.ofNat (LittleEndian.decode (bytes.take wordBytes)) ::
      wordsIn (bytes.drop wordBytes) count := by
  rw [wordsIn, List.range_succ_eq_map, List.map_cons, List.map_map, wordsIn]
  congr 1
  apply List.map_congr_left
  intro index _
  rw [Function.comp_apply, List.drop_drop, Nat.succ_eq_add_one, Nat.mul_add, Nat.mul_one,
    Nat.add_comm]

private theorem word_eq (front : List UInt8) : word front =
    if wordBytes ≤ front.length then
      .ok (UInt64.ofNat (LittleEndian.decode (front.take wordBytes)), front.drop wordBytes)
    else .error .archiveTruncated := by
  show (bytes 8 front >>= fun found =>
    .ok (LittleEndian.decode found.1, found.2)) >>= (fun found =>
      .ok (UInt64.ofNat found.1, found.2)) = _
  rw [bytes_eq]
  unfold wordBytes
  split <;> rfl

private theorem repeatInto_word (count : Nat) (values : Array UInt64) (front : List UInt8) :
    repeatInto word count values front =
      if count * wordBytes ≤ front.length then
        .ok (values ++ (wordsIn front count).toArray, front.drop (count * wordBytes))
      else .error .archiveTruncated := by
  induction count generalizing values front with
  | zero =>
    rw [Nat.zero_mul, if_pos (Nat.zero_le _), List.drop_zero]
    show Except.ok (values, front) = .ok (values ++ #[], front)
    rw [Array.append_empty]
  | succ count ih =>
    rw [repeatInto_succ, bind_apply, word_eq, Nat.succ_mul]
    by_cases enough : wordBytes ≤ front.length
    · have rest : count * wordBytes ≤ (front.drop wordBytes).length ↔
          count * wordBytes + wordBytes ≤ front.length := by
        rw [List.length_drop]
        omega
      rw [if_pos enough, ok_bind]
      simp only [ih, rest, wordsIn_succ front count, List.drop_drop]
      split
      · simp [Nat.add_comm]
      · rfl
    · rw [if_neg enough, if_neg (by omega)]
      rfl

private theorem array_word (count : Nat) : array word count =
    bytes (count * wordBytes) >>= fun block => pure (wordsIn block count).toArray := by
  funext front
  rw [array, repeatInto_word, bind_apply, bytes_eq]
  split
  · rename_i enough
    have same : wordsIn (front.take (count * wordBytes)) count = wordsIn front count := by
      apply List.map_congr_left
      intro index member
      have below := Nat.mul_le_mul_right wordBytes (Nat.succ_le_of_lt (List.mem_range.mp member))
      rw [List.drop_take, List.take_take, Nat.min_eq_left]
      unfold wordBytes at *
      omega
    rw [Array.empty_append, ok_bind]
    simp only [same]
    rfl
  · rfl

end Reader

namespace MeasuringReader

/-- The reader with machine words is never stopped, and what it reads is in another form what the
reader without them reads. -/
def Measures (measuring : MeasuringReader β) (reader : Reader α) (form : α → β) : Prop :=
  ∀ bytes, Check.Mirrors (measuring bytes)
    ((reader bytes).map fun (value, rest) => (form value, rest))

namespace Measures

theorem plain (reader : Reader α) :
    Measures (MeasuringReader.plain reader) reader fun value => value := by
  intro bytes
  show Except.ok (reader bytes) = _
  cases reader bytes <;> rfl

theorem pure {form : α → β} (value : α) : Measures (pure (form value)) (pure value) form :=
  fun _ => rfl

theorem require (cause : Malformed) (answer : Option α) (form : α → β) :
    Measures (MeasuringReader.plain (Reader.require cause (answer.map form)))
      (Reader.require cause answer) form := by
  cases answer <;> exact fun _ => rfl

/-- What is computed next need only be measured for what can be read. -/
theorem bind {measuring : MeasuringReader δ} {reader : Reader α} {next : δ → MeasuringReader γ}
    {after : α → Reader β} {form : α → δ} {last : β → γ} {good : α → Prop}
    (first : Measures measuring reader form) (yields : reader.Yields good)
    (second : ∀ value, good value → Measures (next (form value)) (after value) last) :
    Measures (measuring >>= next) (reader >>= after) last := by
  intro bytes
  have split : ((measuring >>= next) bytes).run =
      (measuring bytes).run >>= ExceptT.bindCont fun (value, rest) => next value rest := rfl
  rw [Check.Mirrors, split, first bytes, Reader.bind_apply]
  cases read : reader bytes with
  | error cause => rfl
  | ok found => exact second found.1 (yields bytes found.1 found.2 read) found.2

theorem behind {measuring : MeasuringReader δ} {reader : Reader α} {next : δ → MeasuringReader γ}
    {after : α → Reader β} {form : α → δ} {last : β → γ} (first : Measures measuring reader form)
    (second : ∀ value, Measures (next (form value)) (after value) last) :
    Measures (measuring >>= next) (reader >>= after) last :=
  first.bind .anything fun value _ => second value

theorem lift {ran : Run δ} {next : δ → MeasuringReader β} {value : δ} {reader : Reader α}
    {form : α → β} (done : ran = .ok value) (tail : Measures (next value) reader form) :
    Measures (liftM ran >>= next) reader form := by
  subst done
  exact tail

theorem refusing {condition : Prop} [Decidable condition] {cause : Malformed}
    {next : Unit → MeasuringReader β} {after : Unit → Reader α} {form : α → β}
    (otherwise : ¬ condition → Measures (next ()) (after ()) form) :
    Measures (if condition then MonadExcept.throw cause >>= next else next ())
      (if condition then MonadExcept.throw cause >>= after else after ()) form := by
  by_cases refused : condition
  · rw [if_pos refused, if_pos refused]
    exact fun _ => rfl
  · rw [if_neg refused, if_neg refused]
    exact otherwise refused

end Measures

private theorem wordOf_ok {chunk : List UInt8} (size : chunk.length = wordBytes) :
    wordOf chunk = .ok (UInt64.ofNat (LittleEndian.decode chunk)) := by
  rw [wordOf, ← size, mapM_range_eq_ok fun index byte present => entryAt_eq_ok_iff.mpr (by
    rwa [List.getElem?_toArray])]
  rfl

/-- The blocks of words that are read are small enough to be measured, and hold as many words. -/
theorem words_measures {count : Nat} (small : count * wordBytes < UInt64.size) :
    Measures (words count) (Reader.array Reader.word count) fun words => words := by
  rw [Reader.array_word]
  refine .lift (sized_ok small) ?_
  refine (Measures.plain _).bind (.bytes _) fun block size => ?_
  have chunks : block.length / wordBytes = (Reader.wordsIn block count).length := by
    rw [size, Nat.mul_div_cancel _ (by decide), Reader.wordsIn, List.length_map, List.length_range]
  have chopped : ((List.range (block.length / wordBytes)).mapM fun index => do
      wordOf (← slice block.toArray (wordBytes * index) (wordBytes * index + wordBytes))) =
        .ok (Reader.wordsIn block count) := by
    rw [chunks]
    refine mapM_range_eq_ok fun index word present => ?_
    obtain ⟨inside, rfl⟩ := List.getElem?_eq_some_iff.mp present
    have below : index < count := by simpa [Reader.wordsIn] using inside
    have within : wordBytes * index + wordBytes ≤ block.length := by
      rw [size, Nat.mul_comm count, ← Nat.mul_succ]
      exact Nat.mul_le_mul_left wordBytes below
    have chunk : slice block.toArray (wordBytes * index) (wordBytes * index + wordBytes) =
        .ok ((block.drop (wordBytes * index)).take wordBytes) := by
      rw [slice, if_pos ⟨Nat.le_add_right _ _, within⟩]
      simp
    refine bind_eq_ok_iff.mpr ⟨_, chunk, ?_⟩
    rw [wordOf_ok (by rw [List.length_take, List.length_drop]; omega)]
    simp [Reader.wordsIn]
  exact .lift chopped (.pure _)

private theorem narrowing_measures :
    Measures narrowing Reader.narrowing fun narrowing => narrowing := by
  refine (Measures.plain _).behind fun base => (Measures.plain _).behind fun shift => ?_
  exact .lift (Narrowing.measure_eq base shift) (.plain _)

end MeasuringReader

def Image.counted (image : Image) : CountedImage := ⟨image, image.marks.count⟩

namespace MeasuringReader

private theorem image_measures (before : List Image) :
    Measures (image (before.map Image.counted)) (Reader.image before) Image.counted := by
  unfold image Reader.image
  refine (Measures.plain _).behind fun code => (Measures.plain _).behind fun region => ?_
  rw [List.any_map]
  refine .refusing fun _ => (Measures.plain _).behind fun base => ?_
  refine (Measures.plain _).behind fun count => .refusing fun few => ?_
  have small : count ≤ Archive.maxWords := Nat.le_of_not_lt few
  unfold Archive.maxWords UInt32.size at small
  refine (words_measures (by unfold wordBytes UInt64.size; omega)).behind fun words => ?_
  refine .lift (ceiling_eq (by unfold wordsFor UInt64.size; omega)) ?_
  refine (words_measures (by unfold wordsFor wordBytes UInt64.size; omega)).behind fun packed => ?_
  exact .lift (Marks.measure_eq small) ((Measures.require _ _ _).behind fun marks => .pure _)

private theorem images_measures (count : Nat) (before : List Image) :
    Measures (images count (before.map Image.counted)) (Reader.images count before)
      (List.map Image.counted) := by
  induction count generalizing before with
  | zero => exact .pure before
  | succ count ih =>
    refine (image_measures before).behind fun image => ?_
    have later := ih (before ++ [image])
    rwa [List.map_append] at later

private theorem archive_measures : Measures archive Reader.archive fun archive =>
    (archive, archive.regions.map (·.marks.count)) := by
  unfold archive Reader.archive
  refine (Measures.plain _).behind fun magic => .refusing fun _ => ?_
  refine (Measures.plain _).behind fun version => .refusing fun _ => ?_
  refine (Measures.plain _).behind fun regionCount => narrowing_measures.behind fun narrowing => ?_
  refine (Measures.plain _).behind fun nameCount => (Measures.plain _).behind fun names => ?_
  refine (Measures.plain _).behind fun length => (Measures.plain _).behind fun table => ?_
  refine (images_measures regionCount []).behind fun found => ?_
  have ordered : (Region.all.filterMap fun region =>
      (found.map Image.counted).find? (·.image.region = region)) =
        (Region.all.filterMap fun region => found.find? (·.region = region)).map Image.counted := by
    rw [List.map_filterMap]
    apply List.filterMap_congr
    intro region _
    rw [List.find?_map]
    rfl
  have images (images : List Image) : (images.map Image.counted).map (·.image) = images := by
    rw [List.map_map]
    exact List.map_id images
  simp only [ordered, images, List.map_map]
  exact .pure _

end MeasuringReader

/-- Reading with machine words is never stopped, and reads what is read without. -/
theorem Archive.measure_mirrors (bytes : List UInt8) : Check.Mirrors (measure bytes)
    ((ofBytes bytes).map fun archive => (archive, archive.regions.map (·.marks.count))) := by
  have split : (measure bytes).run =
      (MeasuringReader.archive bytes).run >>= ExceptT.bindCont fun result => pure result.1 := rfl
  rw [Check.Mirrors, split, MeasuringReader.archive_measures bytes, ofBytes, StateT.run]
  cases Reader.archive bytes <;> rfl

end FrozenHeap
