import FrozenHeap.Breach
import FrozenHeap.Proofs.RecordTable.RoundTrip

namespace FrozenHeap

open TableLayout RecordTable

namespace TableLayout

variable {block bytes front back : List UInt8} {offset : Nat}

/-- At each offset, a block has the bytes from there on. -/
theorem holds_extract {block : Array UInt8} {offset width : Nat}
    (inside : offset + width ≤ block.size) :
    Holds block.toList offset (block.extract offset (offset + width)).toList := by
  refine ⟨block.toList.take offset, block.toList.drop (offset + width), ?_, ?_⟩
  · rw [Array.toList_extract, List.extract_eq_take_drop, Nat.add_sub_cancel_left,
      ← List.drop_drop, List.take_append_drop, List.take_append_drop]
  · rw [List.length_take, Array.length_toList]
    omega

namespace Holds

theorem append (first : Holds block offset front)
    (second : Holds block (offset + front.length) back) : Holds block offset (front ++ back) := by
  obtain ⟨before, behind, split, start⟩ := first
  obtain ⟨other, rest, again, length⟩ := second
  rw [split, ← List.append_assoc] at again
  obtain ⟨-, same⟩ := List.append_inj again (by rw [List.length_append, start, length])
  exact ⟨before, rest, by rw [split, same, List.append_assoc], start⟩

theorem empty (inside : offset ≤ block.length) : Holds block offset [] :=
  ⟨block.take offset, block.drop offset, by simp, List.length_take_of_le inside⟩

theorem flatMap {items : List α} {write : α → List UInt8} {width : Nat}
    (sized : ∀ item, (write item).length = width) (inside : offset ≤ block.length)
    (each : ∀ index item, items[index]? = some item →
      Holds block (offset + width * index) (write item)) :
    Holds block offset (items.flatMap write) := by
  induction items generalizing offset with
  | nil => exact empty inside
  | cons item rest ih =>
    have first := each 0 item rfl
    rw [Nat.mul_zero, Nat.add_zero] at first
    have long := first.le_length
    refine first.append (ih (by omega) fun index other present => ?_)
    have behind := each (index + 1) other present
    rw [Nat.mul_add, Nat.mul_one, Nat.add_comm (width * index), ← Nat.add_assoc] at behind
    rw [sized]
    exact behind

end Holds

/-- At an offset, a block has this name behind its length. -/
def NameAt (block : List UInt8) (offset : Nat) (name : String) : Prop :=
  (utf8 name).length < UInt32.size ∧ Holds block offset (half (utf8 name).length ++ utf8 name)

/-- At its place, a block has this record: numbers that say where its name is, whether it is
partial, and how many entries and classes it has; its entries; and the offsets of the names of
its classes. -/
def RecordAt (block : List UInt8) (place : Nat) (record : Record) : Prop :=
  ∃ (title flags : UInt32) (offsets : List UInt32),
    Holds block place (half title.toNat ++ half flags.toNat ++ half record.entries.length ++
      half record.classes.length ++ record.entries.flatMap entryBlock ++
      offsets.flatMap (half ·.toNat)) ∧
    record.entries.length < UInt32.size ∧ record.classes.length < UInt32.size ∧
    NameAt block title.toNat record.className ∧
    List.Forall₂ (fun offset name => NameAt block offset.toNat name) offsets record.classes ∧
    record.isPartial = (flags.toNat % 2 == 1)

end TableLayout

/-- What is read behind a condition under which nothing is. -/
theorem of_unless {ε : Type} {condition : Prop} [Decidable condition] {cause : ε}
    {next : Unit → Except ε α} {value : α}
    (done : (if condition then MonadExcept.throw cause >>= next else next ()) = .ok value) :
    ¬ condition ∧ next () = .ok value := by
  split at done
  · cases done
  · rename_i fine
    exact ⟨fine, done⟩

theorem getElem?_of_mapM_range {ε α : Type} {read : Nat → Except ε α} {count : Nat}
    {items : List α} (done : (List.range count).mapM read = .ok items) :
    items.length = count ∧ ∀ index item, items[index]? = some item → read index = .ok item := by
  have each (first : Nat) : ∀ {count : Nat} {items : List α},
      (List.range' first count).mapM read = .ok items → items.length = count ∧
        ∀ index item, items[index]? = some item → read (first + index) = .ok item := by
    intro count
    induction count generalizing first with
    | zero =>
      intro items done
      cases done
      exact ⟨rfl, fun index item present => by simp at present⟩
    | succ count ih =>
      intro items done
      rw [List.range'_succ, List.mapM_cons] at done
      obtain ⟨item, head, done⟩ := bind_eq_ok_iff.mp done
      obtain ⟨rest, tail, same⟩ := bind_eq_ok_iff.mp done
      cases same
      obtain ⟨length, others⟩ := ih (first + 1) tail
      refine ⟨congrArg (· + 1) length, fun index other present => ?_⟩
      cases index with
      | zero =>
        cases present
        exact head
      | succ index =>
        have found := others index other present
        rwa [Nat.add_assoc, Nat.add_comm 1] at found
  rw [List.range_eq_range'] at done
  obtain ⟨length, others⟩ := each 0 done
  exact ⟨length, fun index item present => by simpa using others index item present⟩

namespace RecordTable

variable {block : Array UInt8} {offset n : Nat}

/-- A number is read where it is written, and fits its width. -/
theorem holds_of_number? {width : Nat} (found : number? block width offset = some n) :
    n < LittleEndian.count width ∧ Holds block.toList offset (LittleEndian.encode width n) := by
  unfold number? at found
  split at found
  · rename_i inside
    cases found
    have length : (block.extract offset (offset + width)).toList.length = width := by
      simp
      omega
    have small := LittleEndian.decode_lt (block.extract offset (offset + width)).toList
    have written := LittleEndian.encode_decode (block.extract offset (offset + width)).toList
    rw [length] at small written
    rw [written]
    exact ⟨small, holds_extract inside⟩
  · cases found

theorem holds_half (found : number? block halfBytes offset = some n) :
    ∃ word : UInt32, word.toNat = n ∧ Holds block.toList offset (half word.toNat) := by
  obtain ⟨small, holds⟩ := holds_of_number? found
  have same : (UInt32.ofNat n).toNat = n := UInt32.toNat_ofNat_of_lt' small
  exact ⟨UInt32.ofNat n, same, same.symm ▸ holds⟩

theorem require_eq_ok_iff {part : TablePart} {answer : Option α} {value : α} :
    require part answer = .ok value ↔ answer = some value := by
  cases answer <;> simp [require]

private theorem nameAt_of_name? {name : String} (found : name? block offset = some name) :
    NameAt block.toList offset name := by
  obtain ⟨length, counted, found⟩ := Option.bind_eq_some_iff.mp found
  simp only at found
  split at found
  · rename_i inside
    have written := eq_utf8_of_ofUtf8? found
    have text := holds_extract inside
    have long : (utf8 name).length = length := by
      rw [← written]
      simp
      omega
    obtain ⟨small, holds⟩ := holds_of_number? counted
    rw [written] at text
    rw [← long] at small holds
    exact ⟨small, holds.append (by rw [LittleEndian.length_encode]; exact text)⟩
  · cases found

private theorem code_of_ofCode? {code : Nat} {kind : EntryKind}
    (found : EntryKind.ofCode? code = some kind) : kind.code = code := by
  unfold EntryKind.ofCode? at found
  split at found <;> cases found <;> rfl

private theorem holds_of_readEntry {entry : Entry} (read : readEntry block offset = .ok entry) :
    Holds block.toList offset (entryBlock entry) := by
  obtain ⟨code, coded, read⟩ := bind_eq_ok_iff.mp read
  obtain ⟨kind, known, read⟩ := bind_eq_ok_iff.mp read
  obtain ⟨field, numbered, read⟩ := bind_eq_ok_iff.mp read
  obtain ⟨value, valued, same⟩ := bind_eq_ok_iff.mp read
  cases same
  rw [require_eq_ok_iff] at coded known numbered valued
  obtain ⟨small, first⟩ := holds_of_number? numbered
  obtain ⟨large, third⟩ := holds_of_number? valued
  obtain ⟨_, second⟩ := holds_of_number? coded
  rw [← code_of_ofCode? known] at second
  have fits : (UInt32.ofNat field).toNat = field := UInt32.toNat_ofNat_of_lt' small
  have wide : (UInt64.ofNat value).toNat = value := UInt64.toNat_ofNat_of_lt' large
  rw [entryBlock, fits, wide]
  refine (first.append ?_).append ?_
  · rw [LittleEndian.length_encode]
    exact second
  · simp only [List.length_append, LittleEndian.length_encode]
    exact third

private theorem holds_of_readClass {name : String} (read : readClass block offset = .ok name) :
    ∃ place : UInt32, Holds block.toList offset (half place.toNat) ∧
      NameAt block.toList place.toNat name := by
  obtain ⟨title, found, read⟩ := bind_eq_ok_iff.mp read
  rw [require_eq_ok_iff] at found read
  obtain ⟨place, rfl, holds⟩ := holds_half found
  exact ⟨place, holds, nameAt_of_name? read⟩

private theorem exists_offsets {first : Nat} {names : List String}
    (each : ∀ index name, names[index]? = some name →
      readClass block (first + halfBytes * index) = .ok name) (inside : first ≤ block.size) :
    ∃ offsets : List UInt32, Holds block.toList first (offsets.flatMap (half ·.toNat)) ∧
      List.Forall₂ (fun offset name => NameAt block.toList offset.toNat name) offsets names := by
  induction names generalizing first with
  | nil => exact ⟨[], .empty (by simpa using inside), .nil⟩
  | cons name rest ih =>
    obtain ⟨place, head, named⟩ := holds_of_readClass (each 0 name rfl)
    rw [Nat.mul_zero, Nat.add_zero] at head
    have long := head.le_length
    rw [length_half, Array.length_toList] at long
    have behind (index : Nat) (other : String) (present : rest[index]? = some other) :
        readClass block (first + halfBytes + halfBytes * index) = .ok other := by
      have found := each (index + 1) other present
      rwa [Nat.mul_add, Nat.mul_one, Nat.add_comm (halfBytes * index), ← Nat.add_assoc] at found
    obtain ⟨offsets, tail, others⟩ := ih behind long
    exact ⟨place :: offsets, head.append (by rw [length_half]; exact tail), .cons named others⟩

private theorem recordAt_of_readRecord {hash place : Nat} {record : Record}
    (read : readRecord block hash place = .ok record) :
    (hashName record.className).toNat = hash ∧ RecordAt block.toList place record := by
  obtain ⟨name, named, read⟩ := bind_eq_ok_iff.mp read
  obtain ⟨hashed, read⟩ := of_unless read
  obtain ⟨entryCount, counted, read⟩ := bind_eq_ok_iff.mp read
  obtain ⟨classCount, numbered, read⟩ := bind_eq_ok_iff.mp read
  obtain ⟨inside, read⟩ := of_unless read
  obtain ⟨flags, flagged, read⟩ := bind_eq_ok_iff.mp read
  obtain ⟨entries, entered, read⟩ := bind_eq_ok_iff.mp read
  obtain ⟨classes, listed, same⟩ := bind_eq_ok_iff.mp read
  cases same
  rw [require_eq_ok_iff] at named counted numbered flagged
  obtain ⟨offset, found, named⟩ := Option.bind_eq_some_iff.mp named
  obtain ⟨length, eachEntry⟩ := getElem?_of_mapM_range entered
  obtain ⟨count, eachClass⟩ := getElem?_of_mapM_range listed
  subst length count
  obtain ⟨title, rfl, first⟩ := holds_half found
  obtain ⟨flags, rfl, second⟩ := holds_half flagged
  obtain ⟨few, third⟩ := holds_of_number? counted
  obtain ⟨short, fourth⟩ := holds_of_number? numbered
  have room : place + 16 + entryBytes * entries.length + halfBytes * classes.length ≤
    block.size := by
    unfold recordSize recordHeaderBytes at inside
    omega
  have fifth : Holds block.toList (place + 16) (entries.flatMap entryBlock) :=
    .flatMap length_entryBlock (by rw [Array.length_toList]; omega) fun index entry present =>
      holds_of_readEntry (eachEntry index entry present)
  obtain ⟨offsets, sixth, names⟩ := exists_offsets eachClass (by
    unfold recordHeaderBytes
    omega)
  refine ⟨not_not.mp hashed, title, flags, offsets, ?_, few, short, nameAt_of_name? named,
    names, rfl⟩
  have behind : halfBytes + halfBytes + halfBytes + halfBytes = recordHeaderBytes := rfl
  rw [Nat.add_assoc] at sixth
  refine ((((first.append ?_).append ?_).append ?_).append ?_).append ?_ <;>
    simp only [List.length_append, length_half, length_flatMap_of_sized length_entryBlock, behind]
  exacts [second, third, fourth, fifth, sixth]

/-- The bucket starts, each where it is read, lie within the rows. -/
theorem starts_of_readStarts {rowCount count previous : Nat} {read starts : Array Nat}
    (done : readStarts block rowCount count offset previous read = .ok starts) :
    ∃ rest : List Nat, starts = read ++ rest.toArray ∧ rest.length = count ∧
      ∀ index start, rest[index]? = some start → start ≤ rowCount ∧
        number? block halfBytes (offset + halfBytes * index) = some start := by
  induction count generalizing offset previous read with
  | zero =>
    unfold readStarts at done
    split at done
    · cases done
      exact ⟨[], by simp, rfl, fun index start present => by simp at present⟩
    · cases done
  | succ count ih =>
    unfold readStarts at done
    split at done
    · cases done
    rename_i start found
    split at done
    · cases done
    rename_i ordered
    obtain ⟨rest, same, length, others⟩ := ih done
    refine ⟨start :: rest, by rw [same]; simp, congrArg (· + 1) length,
      fun index other present => ?_⟩
    cases index with
    | zero =>
      cases present
      exact ⟨by omega, found⟩
    | succ index =>
      have behind := others index other present
      rwa [Nat.add_assoc, Nat.add_comm halfBytes, ← Nat.mul_succ] at behind

/-- A row with the place of its record, as the bytes of a table with so many buckets have them. -/
structure RowAt (block : Array UInt8) (buckets index : Nat) (row : Row) (place : UInt32) :
    Prop where
  hash : number? block halfBytes (rowsStart buckets + rowBytes * index) = some row.hash.toNat
  placed : number? block halfBytes (rowsStart buckets + rowBytes * index + halfBytes) =
    some place.toNat
  hashed : row.hash = hashName row.record.className
  record : RecordAt block.toList place.toNat row.record

theorem RowAt.holds {buckets index : Nat} {row : Row} {place : UInt32}
    (written : RowAt block buckets index row place) :
    Holds block.toList (rowsStart buckets + rowBytes * index) (rowBlock (row, place.toNat)) := by
  obtain ⟨_, first⟩ := holds_of_number? written.hash
  obtain ⟨_, second⟩ := holds_of_number? written.placed
  exact first.append (by rw [LittleEndian.length_encode]; exact second)

private theorem rowAt_of_readRow {starts : Array Nat} {index : Nat} {row : Row}
    (read : readRow block starts index = .ok row) :
    inBucket starts row.hash.toNat index = true ∧
      ∃ place, RowAt block (starts.size - 1) index row place := by
  obtain ⟨hash, hashed, read⟩ := bind_eq_ok_iff.mp read
  obtain ⟨place, placed, read⟩ := bind_eq_ok_iff.mp read
  rw [require_eq_ok_iff] at hashed placed
  split at read
  · rename_i bucket
    obtain ⟨record, found, same⟩ := bind_eq_ok_iff.mp read
    cases same
    obtain ⟨named, written⟩ := recordAt_of_readRecord found
    obtain ⟨word, rfl, _⟩ := holds_half hashed
    obtain ⟨place, rfl, _⟩ := holds_half placed
    rw [UInt32.ofNat_toNat]
    exact ⟨bucket, place, hashed, placed, (UInt32.toNat_inj.mp named).symm, written⟩
  · cases read

/-- What a table was read from. -/
structure ReadFrom (block : Array UInt8) (table : RecordTable) : Prop where
  positive : 0 < table.buckets
  bucketCount : number? block halfBytes 8 = some table.buckets
  rowCount : number? block halfBytes 12 = some table.rows.size
  size : table.starts.size = table.buckets + 1
  inside : rowsStart table.buckets + rowBytes * table.rows.size ≤ block.size
  start : ∀ (index start : Nat), table.starts[index]? = some start → start ≤ table.rows.size ∧
    number? block halfBytes (headerBytes + halfBytes * index) = some start
  row : ∀ (index : Nat) (row : Row), table.rows[index]? = some row →
    inBucket table.starts row.hash.toNat index = true ∧
      ∃ place, RowAt block table.buckets index row place

theorem readFrom_of_readBody {buckets rowCount : Nat} {table : RecordTable}
    (done : readBody block buckets rowCount = .ok table) :
    table.starts.size = buckets + 1 ∧ table.rows.size = rowCount ∧
      rowsStart buckets + rowBytes * rowCount ≤ block.size ∧
      (∀ (index start : Nat), table.starts[index]? = some start → start ≤ rowCount ∧
        number? block halfBytes (headerBytes + halfBytes * index) = some start) ∧
      ∀ (index : Nat) (row : Row), table.rows[index]? = some row →
        readRow block table.starts index = .ok row := by
  unfold readBody at done
  obtain ⟨inside, done⟩ := of_unless done
  obtain ⟨starts, started, done⟩ := bind_eq_ok_iff.mp done
  obtain ⟨rows, read, same⟩ := bind_eq_ok_iff.mp done
  cases same
  obtain ⟨rest, rfl, length, found⟩ := starts_of_readStarts started
  obtain ⟨count, each⟩ := getElem?_of_mapM_range read
  refine ⟨by simp [length], by simp [count], Nat.not_lt.mp inside,
    fun index start present => found index start ?_,
    fun index row present => each index row (by simpa using present)⟩
  simpa using present

theorem readFrom_of_ofBytes {table : RecordTable} (read : ofBytes block = .ok table) :
    ReadFrom block table := by
  unfold ofBytes at read
  obtain ⟨_, read⟩ := of_unless read
  split at read
  · rename_i found versioned
    obtain ⟨_, read⟩ := of_unless read
    split at read
    · rename_i buckets bucketCount
      split at read
      · rename_i rowCount counted
        obtain ⟨some_, read⟩ := of_unless read
        split at read
        · rename_i accepted body
          cases read
          obtain ⟨size, rows, inside, start, row⟩ := readFrom_of_readBody body
          have same : table.buckets = buckets := by
            rw [RecordTable.buckets, size, Nat.add_sub_cancel]
          refine ⟨by omega, same ▸ bucketCount, rows ▸ counted, same ▸ size, ?_, rows ▸ start, ?_⟩
          · rw [same, rows]
            exact inside
          · exact fun index found present => rowAt_of_readRow (row index found present)
        · cases read
      · cases read
    · cases read
  · cases read

/-- Each row of a table is in the bucket of its hash, which is the hash of its record's name. -/
theorem ReadFrom.sound {table : RecordTable} (source : ReadFrom block table) : table.Sound := by
  intro index row present
  obtain ⟨bucket, place, written⟩ := source.row index row present
  exact ⟨written.hashed, bucket⟩

end RecordTable
end FrozenHeap
