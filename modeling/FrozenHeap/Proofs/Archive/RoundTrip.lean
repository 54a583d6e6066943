import FrozenHeap.Archive.Reading
import FrozenHeap.Proofs.Draft.Cells

namespace FrozenHeap

namespace Reader

theorem bytes_eq (length : Nat) (front : List UInt8) : bytes length front =
    if length ≤ front.length then .ok (front.take length, front.drop length)
    else .error .archiveTruncated := by
  rw [bytes]
  simp only [List.length_take]
  by_cases enough : length ≤ front.length
  · rw [if_pos enough, if_pos (by omega)]
  · rw [if_neg enough, if_neg (by omega)]

/-- From the front of any bytes, the reader takes these bytes and reads this value. -/
def Takes (reader : Reader α) (bytes : List UInt8) (value : α) : Prop :=
  ∀ rest, reader (bytes ++ rest) = .ok (value, rest)

namespace Takes

theorem pure (value : α) : Takes (pure value) [] value := fun _ => rfl

theorem bind {reader : Reader α} {next : α → Reader β} {front back : List UInt8} {value : α}
    {result : β} (first : Takes reader front value) (second : Takes (next value) back result) :
    Takes (reader >>= next) (front ++ back) result := by
  intro rest
  have start := first (back ++ rest)
  rw [← List.append_assoc] at start
  calc (reader >>= next) (front ++ back ++ rest)
      = (reader (front ++ back ++ rest) >>= fun (value, rest) => next value rest) := rfl
    _ = next value (back ++ rest) := by rw [start]; rfl
    _ = .ok (result, rest) := second rest

theorem last {reader : Reader α} {next : α → Reader β} {bytes : List UInt8} {value : α} {result : β}
    (first : Takes reader bytes value) (second : Takes (next value) [] result) :
    Takes (reader >>= next) bytes result := by
  have both := first.bind second
  rw [List.append_nil] at both
  exact both

theorem next {reader : Reader α} {next : α → Reader β} {bytes : List UInt8} {value : α} {result : β}
    (first : Takes reader [] value) (second : Takes (next value) bytes result) :
    Takes (reader >>= next) bytes result := first.bind second

theorem require {cause : Malformed} {answer : Option α} {value : α} (found : answer = some value) :
    Takes (Reader.require cause answer) [] value := by
  subst found
  exact Takes.pure value

theorem bytes (bytes : List UInt8) : Takes (Reader.bytes bytes.length) bytes bytes := by
  intro rest
  simp [Reader.bytes]

theorem number {width n : Nat} (fits : n < LittleEndian.count width) :
    Takes (Reader.number width) (LittleEndian.encode width n) n := by
  have read := Takes.bytes (LittleEndian.encode width n)
  rw [LittleEndian.length_encode] at read
  refine read.last ?_
  rw [LittleEndian.decode_encode_of_lt fits]
  exact Takes.pure n

theorem word (word : UInt64) : Takes Reader.word (LittleEndian.encode 8 word.toNat) word := by
  refine (Takes.number word.toNat_lt).last ?_
  rw [UInt64.ofNat_toNat]
  exact Takes.pure word

theorem array {reader : Reader α} {write : α → List UInt8} {items : List α}
    (each : ∀ item ∈ items, Takes reader (write item) item) :
    Takes (Reader.array reader items.length) (items.flatMap write) items.toArray := by
  have into (read : Array α) :
      Takes (Reader.repeatInto reader items.length read) (items.flatMap write)
        (read ++ items.toArray) := by
    induction items generalizing read with
    | nil =>
      rw [Array.append_empty]
      exact Takes.pure read
    | cons item rest ih =>
      intro behind
      have first := each item List.mem_cons_self (rest.flatMap write ++ behind)
      have others := ih (fun other member => each other (List.mem_cons_of_mem _ member))
        (read.push item) behind
      rw [List.flatMap_cons, List.append_assoc]
      simp only [List.length_cons, repeatInto, first, others]
      simp
  have read := into #[]
  rw [Array.empty_append] at read
  exact read

end Takes

theorem length_utf8 (name : String) : (utf8 name).length = name.utf8ByteSize := by
  rw [utf8, Array.length_toList]
  exact ByteArray.size_data

private theorem takes_name {name : String} (short : name.utf8ByteSize < UInt32.size) :
    Takes Reader.name (Archive.sectionOf (utf8 name)) name := by
  rw [← length_utf8] at short
  exact (Takes.number short).bind
    ((Takes.bytes (utf8 name)).last (Takes.require (ofUtf8?_utf8 name)))

private theorem takes_narrowing (narrowing : Narrowing) :
    Takes Reader.narrowing (LittleEndian.encode 8 narrowing.base.toNat ++
      LittleEndian.encode 4 narrowing.shift) narrowing := by
  have small : narrowing.shift < LittleEndian.count 4 := by
    have bound := narrowing.shift_le
    exact Nat.lt_of_le_of_lt bound (by decide)
  have same : Narrowing.of? narrowing.base narrowing.shift = some narrowing := by
    rw [Narrowing.of?, dif_pos ⟨narrowing.shift_le, narrowing.aligned, narrowing.fits⟩]
  exact (Takes.word narrowing.base).bind ((Takes.number small).last (Takes.require same))

private theorem takes_image {before : List Image} {image : Image} (covered : image.Covered)
    (few : image.words.size ≤ Archive.maxWords)
    (new : before.any (·.region = image.region) = false) :
    Takes (Reader.image before) (Archive.imageOf image) image := by
  have code : image.region.code < LittleEndian.count 1 := by
    cases image.region <;> decide
  have size : image.words.size < LittleEndian.count 8 := Nat.lt_of_le_of_lt few (by decide)
  have packed : image.marks.words.size = wordsFor image.words.size := covered ▸ image.marks.sized
  have marks : Marks.ofWords? image.marks.words image.words.size = some image.marks := by
    rw [← covered]
    exact image.marks.ofWords?_words
  have words (words : Array UInt64) :
      Takes (Reader.array Reader.word words.size) (Archive.wordsOf words) words :=
    Takes.array fun word _ => Takes.word word
  unfold Reader.image Archive.imageOf
  simp only [List.append_assoc]
  refine (Takes.number code).bind ?_
  refine Takes.next (Takes.require (Region.ofCode?_code image.region)) ?_
  rw [if_neg (by simp [new])]
  refine (Takes.word image.base).bind ((Takes.number size).bind ?_)
  rw [if_neg (Nat.not_lt_of_le few)]
  refine (words image.words).bind ((packed ▸ words image.marks.words).last ?_)
  exact (Takes.require marks).next (Takes.pure image)

private theorem takes_images (before : List Image) {images : List Image}
    (covered : ∀ image ∈ images, image.Covered)
    (few : ∀ image ∈ images, image.words.size ≤ Archive.maxWords)
    (distinct : ((before ++ images).map (·.region)).Nodup) :
    Takes (Reader.images images.length before) (images.flatMap Archive.imageOf)
      (before ++ images) := by
  induction images generalizing before with
  | nil =>
    rw [List.append_nil]
    exact Takes.pure before
  | cons image rest ih =>
    have new : before.any (·.region = image.region) = false := by
      rw [List.any_eq_false]
      intro other member same
      rw [List.map_append, List.nodup_append] at distinct
      exact distinct.2.2 other.region (List.mem_map_of_mem member) image.region
        (List.mem_map_of_mem List.mem_cons_self) (of_decide_eq_true same)
    have moved : before ++ image :: rest = before ++ [image] ++ rest := by simp
    rw [moved] at distinct ⊢
    rw [List.forall_mem_cons] at covered few
    exact (takes_image covered.1 few.1 new).bind (ih _ covered.2 few.2 distinct)

end Reader

namespace Archive

/-- Images of distinct regions in archive order, whose marks cover their words. -/
structure WellFormed (archive : Archive) : Prop where
  ordered : (archive.regions.map (·.region)).Sublist Region.all
  covered : ∀ image ∈ archive.regions, image.Covered
  few : ∀ image ∈ archive.regions, image.words.size ≤ maxWords

namespace WellFormed

variable {archive : Archive} (wellFormed : archive.WellFormed)
include wellFormed

theorem distinct : (archive.regions.map (·.region)).Nodup :=
  wellFormed.ordered.nodup (by decide)

/-- The images stay as they are when they are put in archive order. -/
theorem sorted : (Region.all.filterMap fun region =>
    archive.regions.find? (·.region = region)) = archive.regions := by
  have ordered := wellFormed.ordered
  rcases archive with ⟨_, _, _, regions⟩
  match regions, ordered with
  | [], _ => rfl
  | [image], ordered =>
    cases here : image.region <;> simp [Region.all, here]
  | [first, second], ordered =>
    have both := ordered.eq_of_length rfl
    simp only [List.map_cons, List.map_nil, Region.all, List.cons.injEq] at both
    simp [Region.all, both.1, both.2.1]
  | first :: second :: third :: rest, ordered =>
    have short := ordered.length_le
    simp [Region.all] at short

/-- Whatever follows it, an archive that was written is read back. -/
theorem takes_archive {bytes : List UInt8} (written : archive.toBytes = .ok bytes) :
    Reader.archive.Takes bytes archive := by
  unfold toBytes at written
  split at written
  · cases written
  rename_i few
  split at written
  · rename_i fit
    cases written
    simp only [sectionsFit, Bool.and_eq_true, decide_eq_true_eq, Array.all_eq_true'] at fit
    obtain ⟨⟨nameCount, short⟩, tableSize⟩ := fit
    have names : Reader.Takes (Reader.array Reader.name archive.names.size)
        (archive.names.toList.flatMap fun name => sectionOf (utf8 name)) archive.names :=
      Reader.Takes.array fun name member =>
        Reader.takes_name (short name (Array.mem_toList_iff.mp member))
    have images := Reader.takes_images [] wellFormed.covered wellFormed.few
      wellFormed.distinct
    rw [List.nil_append] at images
    unfold Reader.archive headerOf sectionOf
    simp only [List.append_assoc]
    refine (Reader.Takes.bytes magic).bind ?_
    rw [if_neg (by decide)]
    refine (Reader.Takes.number (by decide)).bind ?_
    rw [if_neg (by decide)]
    refine (Reader.Takes.number (Nat.lt_of_not_le few)).bind ?_
    rw [← List.append_assoc]
    refine (Reader.takes_narrowing archive.narrowing).bind ?_
    refine (Reader.Takes.number nameCount).bind (names.bind ?_)
    refine (Reader.Takes.number tableSize).bind ((Reader.Takes.bytes _).bind (images.last ?_))
    rw [wellFormed.sorted]
    exact Reader.Takes.pure archive
  · cases written

/-- An archive that was written is read back, also from the front of more bytes. -/
theorem ofBytes_toBytes {bytes : List UInt8} (written : archive.toBytes = .ok bytes)
    (rest : List UInt8) : ofBytes (bytes ++ rest) = .ok archive := by
  have read := wellFormed.takes_archive written rest
  rw [ofBytes, StateT.run, read]
  rfl

end WellFormed
end Archive
end FrozenHeap
