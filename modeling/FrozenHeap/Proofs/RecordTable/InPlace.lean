import FrozenHeap.Proofs.RecordTable.Checking

/-! Tables that are read in place. Once the bytes of a table are accepted, each search and each
record in it answer what the bytes say, and nothing ever stands in for what cannot be read. -/

namespace FrozenHeap

open TableLayout RecordTable

namespace TableLayout

variable {block : Array UInt8} {offset : Nat}

theorem Holds.number?_eq {width n : Nat}
    (holds : Holds block.toList offset (LittleEndian.encode width n))
    (fits : n < LittleEndian.count width) : number? block width offset = some n := by
  simpa using holds.number fits

theorem number?_of_half {word : UInt32} (holds : Holds block.toList offset (half word.toNat)) :
    number? block halfBytes offset = some word.toNat := holds.number?_eq word.toNat_lt

theorem NameAt.text?_eq {name : String} (named : NameAt block.toList offset name) :
    text? block offset = some (utf8 name) := by
  obtain ⟨small, holds⟩ := named
  have counted := holds.left.number?_eq small
  have written := holds.right
  rw [length_half] at written
  have inside : offset + halfBytes + (utf8 name).length ≤ block.size := by
    simpa using written.le_length
  have read := written.extract
  rw [Array.toArray_toList] at read
  simp only [text?, counted, Option.bind_eq_bind, Option.bind_some, if_pos inside, read]

end TableLayout

namespace RestingRecord

/-- The accessors of a record give this record, whatever stood in for what could not be read. -/
structure Gives (view : RestingRecord) (record : Record) : Prop where
  className : ∀ fallback, view.className fallback = record.className
  isPartial : ∀ fallback, view.isPartial fallback = .ok record.isPartial
  entryCount : ∀ fallback, view.entryCount fallback = .ok record.entries.length
  entries : ∀ fallback, view.entries fallback = .ok record.entries
  classCount : ∀ fallback, view.classCount fallback = .ok record.classes.length
  classes : ∀ fallback, view.classes fallback = .ok record.classes
  toRecord : ∀ fallback, view.toRecord fallback = .ok record

/-- The parts of a record, each where its accessor looks for it. -/
structure Laid (view : RestingRecord) (record : Record) : Prop where
  spans : view.Spans record.entries.length record.classes.length
  nameBytes : view.nameBytes? = some (utf8 record.className)
  flags : ∃ flags, RecordTable.number? view.block halfBytes (view.place + 4) = some flags ∧
    record.isPartial = (flags % 2 == 1)
  entries : Holds view.block.toList (view.place + recordHeaderBytes)
    (record.entries.flatMap entryBlock)
  classes : ∃ offsets : List UInt32,
    Holds view.block.toList
      (view.place + recordHeaderBytes + entryBytes * record.entries.length)
      (offsets.flatMap (half ·.toNat)) ∧
    List.Forall₂ (fun offset name => NameAt view.block.toList offset.toNat name) offsets
      record.classes

variable {view : RestingRecord} {record : Record}

theorem laid_of_recordAt (near : view.place < UInt32.size)
    (written : RecordAt view.block.toList view.place record) : view.Laid record := by
  obtain ⟨title, flags, offsets, holds, few, short, named, names, partial_⟩ := written
  have inside := holds.le_length
  have classes := holds.right
  have entries := holds.left.right
  have classCount := holds.left.left.right
  have entryCount := holds.left.left.left.right
  have flagged := holds.left.left.left.left.right
  have first := holds.left.left.left.left.left
  have behind : halfBytes + halfBytes + halfBytes + halfBytes = recordHeaderBytes := rfl
  simp only [List.length_append, length_half, length_flatMap_of_sized length_entryBlock, behind,
    length_flatMap_of_sized fun _ => length_half _, names.length_eq] at *
  rw [← Nat.add_assoc] at classes
  refine ⟨⟨near, entryCount.number?_eq few, classCount.number?_eq short, ?_⟩, ?_,
    ⟨flags.toNat, number?_of_half flagged, partial_⟩, entries, offsets, classes, names⟩
  · simpa [recordSize] using inside
  · rw [nameBytes?, number?_of_half first]
    exact named.text?_eq

namespace Laid

variable (laid : view.Laid record)
include laid

theorem className?_eq : view.className? = some record.className := by
  rw [className?, laid.nameBytes]
  exact ofUtf8?_utf8 record.className

private theorem entry_ok (fallback : Fallback) {index : Nat} {entry : Entry}
    (present : record.entries[index]? = some entry) : view.entry fallback index = .ok entry := by
  have below : index < record.entries.length := (List.getElem?_eq_some_iff.mp present).1
  have near := laid.spans.near
  have few := lt_of_number? laid.spans.entryCount
  have holds := laid.entries.item length_entryBlock present
  have code : entry.kind.code < UInt32.size := by
    cases entry.kind with
    | reference region => cases region <;> decide
    | primitive => decide
  have far : view.place + recordHeaderBytes + entryBytes * index + rowBytes < UInt64.size := by
    unfold recordHeaderBytes entryBytes rowBytes UInt64.size UInt32.size at *
    omega
  have field := number?_of_half holds.left.left
  have kind := holds.left.right
  have value := holds.right
  rw [List.length_append, length_half, length_half] at value
  rw [length_half] at kind
  have kind := kind.number?_eq code
  have value := value.number?_eq entry.value.toNat_lt
  refine bind_eq_ok_iff.mpr ⟨_, laid.spans.entryPlace_ok (Nat.le_of_lt below), ?_⟩
  refine bind_eq_ok_iff.mpr ⟨_, sized_ok (Nat.lt_of_le_of_lt ?_ far), ?_⟩
  · exact Nat.add_le_add_left (by decide) _
  refine bind_eq_ok_iff.mpr ⟨_, sized_ok far, ?_⟩
  rw [show halfBytes + halfBytes = rowBytes from rfl] at value
  simp only [field, kind, value, Option.getD_some, Option.bind_eq_bind, Option.bind_some,
    EntryKind.ofCode?_code, UInt32.ofNat_toNat, UInt64.ofNat_toNat]
  rfl

private theorem listedClass_ok (fallback : Fallback) {index : Nat} {name : String}
    (present : record.classes[index]? = some name) :
    view.listedClass fallback index = .ok name := by
  have below : index < record.classes.length := (List.getElem?_eq_some_iff.mp present).1
  obtain ⟨offsets, holds, names⟩ := laid.classes
  obtain ⟨offset, placed, named⟩ : ∃ offset, offsets[index]? = some offset ∧
      NameAt view.block.toList offset.toNat name := by
    obtain ⟨length, each⟩ := List.forall₂_iff_get.mp names
    have inside : index < offsets.length := length ▸ below
    have same : record.classes[index] = name := (List.getElem?_eq_some_iff.mp present).2
    exact ⟨_, List.getElem?_eq_getElem inside, same ▸ each index inside below⟩
  have found := number?_of_half (holds.item (fun _ => length_half _) placed)
  refine bind_eq_ok_iff.mpr ⟨_, laid.spans.classPlace_ok fallback (Nat.le_of_lt below), ?_⟩
  simp only [found, Option.bind_eq_bind, Option.bind_some, named.text?_eq, ofUtf8?_utf8]
  rfl

private theorem entries_ok (fallback : Fallback) : view.entries fallback = .ok record.entries :=
  bind_eq_ok_iff.mpr ⟨_, laid.spans.entryCount_ok fallback,
    mapM_range_eq_ok fun _ _ present => laid.entry_ok fallback present⟩

private theorem classCount_ok (fallback : Fallback) :
    view.classCount fallback = .ok record.classes.length :=
  laid.spans.numberAt_ok fallback (by decide) laid.spans.classCount

private theorem classes_ok (fallback : Fallback) : view.classes fallback = .ok record.classes :=
  bind_eq_ok_iff.mpr ⟨_, laid.classCount_ok fallback,
    mapM_range_eq_ok fun _ _ present => laid.listedClass_ok fallback present⟩

private theorem className_eq (fallback : Fallback) :
    view.className fallback = record.className := by
  rw [className, laid.className?_eq, Option.getD_some]

private theorem isPartial_ok (fallback : Fallback) :
    view.isPartial fallback = .ok record.isPartial := by
  obtain ⟨flags, found, same⟩ := laid.flags
  rw [same]
  exact bind_eq_ok_iff.mpr ⟨flags, laid.spans.numberAt_ok fallback (by decide) found, rfl⟩

theorem gives : view.Gives record where
  className := laid.className_eq
  isPartial := laid.isPartial_ok
  entryCount := laid.spans.entryCount_ok
  entries := laid.entries_ok
  classCount := laid.classCount_ok
  classes := laid.classes_ok
  toRecord fallback := by
    refine bind_eq_ok_iff.mpr ⟨_, laid.entries_ok fallback, ?_⟩
    refine bind_eq_ok_iff.mpr ⟨_, laid.classes_ok fallback, ?_⟩
    refine bind_eq_ok_iff.mpr ⟨_, laid.isPartial_ok fallback, ?_⟩
    rw [laid.className_eq]
    rfl

end Laid
end RestingRecord

namespace RestingTable

/-- The rows of a table, each with the place of its record, as the bytes of the table have them. -/
structure Lists (table : RestingTable) (rows : List (Row × UInt32)) : Prop where
  header : Holds table.block.toList 8 (half table.buckets ++ half table.rowCount)
  count : rows.length = table.rowCount
  written : Holds table.block.toList (rowsStart table.buckets)
    (rows.flatMap fun row => rowBlock (row.1, row.2.toNat))
  hashed : ∀ row ∈ rows, row.1.hash = hashName row.1.record.className
  records : ∀ row ∈ rows, RecordAt table.block.toList row.2.toNat row.1.record

variable {table : RestingTable} {rows : List (Row × UInt32)}

namespace Lists

variable (lists : table.Lists rows) (headed : table.Headed)
include lists

theorem laid {row : Row × UInt32} (member : row ∈ rows) :
    (table.recordAt row.2.toNat).Laid row.1.record :=
  RestingRecord.laid_of_recordAt row.2.toNat_lt (lists.records row member)

private theorem accepts_iff {row : Row × UInt32} (member : row ∈ rows) (name : String) :
    row.1.hash.toNat = (hashName name).toNat ∧
        (table.recordAt row.2.toNat).nameBytes? = some (utf8 name) ↔
      row.1.record.className = name := by
  rw [(lists.laid member).nameBytes, Option.some.injEq, utf8_inj, lists.hashed row member]
  exact and_iff_right_of_imp fun same => by rw [same]

include headed

theorem row?_ok {index : Nat} {row : Row × UInt32} (present : rows[index]? = some row) :
    table.row? index = .ok (some (row.1.hash.toNat, row.2.toNat)) := by
  have below : index < table.rowCount :=
    lists.count ▸ (List.getElem?_eq_some_iff.mp present).1
  have line := lists.written.item (fun _ => length_rowBlock _) present
  have place := line.right
  rw [length_half] at place
  rw [headed.row?_ok below (number?_of_half line.left), number?_of_half place]
  rfl

theorem records_ok : table.records = .ok (rows.map fun row => table.recordAt row.2.toNat) := by
  have count : (rows.map fun row => some (row.1.hash.toNat, row.2.toNat)).length =
      table.rowCount := by
    rw [List.length_map, lists.count]
  have all : (List.range table.rowCount).mapM table.row? =
      .ok (rows.map fun row => some (row.1.hash.toNat, row.2.toNat)) := by
    rw [← count]
    refine mapM_range_eq_ok fun index found present => ?_
    rw [List.getElem?_map] at present
    obtain ⟨row, here, same⟩ := Option.map_eq_some_iff.mp present
    rw [← same]
    exact lists.row?_ok headed here
  refine bind_eq_ok_iff.mpr ⟨_, all, ?_⟩
  rw [List.filterMap_map]
  change Except.ok (rows.filterMap (some ∘ fun row => table.recordAt row.2.toNat)) = _
  rw [List.filterMap_eq_map]

/-- A search through rows that follow each other finds the first of them that has the name. -/
theorem search_ok (name : String) (first count : Nat) (inside : first + count ≤ rows.length) :
    table.search (hashName name).toNat (utf8 name) (List.range' first count) =
      .ok ((((rows.drop first).take count).find? (·.1.record.className == name)).map fun row =>
        table.recordAt row.2.toNat) := by
  induction count generalizing first with
  | zero => rfl
  | succ count ih =>
    have below : first < rows.length := by omega
    have present := List.getElem?_eq_getElem below
    have accepts := lists.accepts_iff (List.getElem_mem below) name
    rw [List.drop_eq_getElem_cons below, List.take_succ_cons, List.range'_succ]
    refine bind_eq_ok_iff.mpr ⟨_, lists.row?_ok headed present, ?_⟩
    simp only [accepts, List.find?_cons]
    by_cases named : rows[first].1.record.className = name
    · rw [if_pos named, beq_iff_eq.mpr named]
      rfl
    · rw [if_neg named, beq_eq_false_iff_ne.mpr named]
      exact ih (first + 1) (by omega)

end Lists

end RestingTable

namespace RecordTable.ReadFrom

open RestingTable

variable {block : Array UInt8} {read : RecordTable} (source : ReadFrom block read)
include source

/-- The rows that were read, with the places of their records. -/
theorem exists_rows : ∃ rows : List (Row × UInt32), rows.map Prod.fst = read.rows.toList ∧
    ∀ index row, rows[index]? = some row → RowAt block read.buckets index row.1 row.2 := by
  have each (index : Fin read.rows.size) : ∃ place,
      RowAt block read.buckets index read.rows[index] place :=
    (source.row index _ (Array.getElem?_eq_getElem index.isLt)).2
  choose place written using each
  refine ⟨List.ofFn fun index : Fin read.rows.size => (read.rows[index], place index), ?_,
    fun index row present => ?_⟩
  · rw [List.map_ofFn]
    exact List.ext_getElem (by simp) fun index _ _ => by simp
  · obtain ⟨inside, same⟩ := List.getElem?_eq_some_iff.mp present
    rw [List.getElem_ofFn] at same
    rw [← same]
    exact written ⟨index, _⟩

theorem lists {rows : List (Row × UInt32)} (same : rows.map Prod.fst = read.rows.toList)
    (each : ∀ index row, rows[index]? = some row → RowAt block read.buckets index row.1 row.2) :
    Lists ⟨block, read.buckets, read.rows.size⟩ rows := by
  have inside := source.inside
  refine ⟨?_, ?_, ?_, fun row member => ?_, fun row member => ?_⟩
  · exact (holds_of_number? source.bucketCount).2.append
      (by rw [LittleEndian.length_encode]; exact (holds_of_number? source.rowCount).2)
  · rw [← Array.length_toList, ← same, List.length_map]
  · refine .flatMap (fun _ => length_rowBlock _) ?_ fun index row present =>
      (each index row present).holds
    rw [Array.length_toList]
    exact Nat.le_trans (Nat.le_add_right _ _) inside
  · obtain ⟨index, present⟩ := List.mem_iff_getElem?.mp member
    exact (each index row present).hashed
  · obtain ⟨index, present⟩ := List.mem_iff_getElem?.mp member
    exact (each index row present).record

theorem headed : Headed ⟨block, read.buckets, read.rows.size⟩ :=
  ⟨source.positive, lt_of_number? source.bucketCount, lt_of_number? source.rowCount⟩

theorem starts : Starts ⟨block, read.buckets, read.rows.size⟩ read.starts :=
  ⟨source.size, fun index start present => (source.start index start present).2⟩

/-- The search in place finds the first row of the name. -/
theorem find?_ok {rows : List (Row × UInt32)} (same : rows.map Prod.fst = read.rows.toList)
    (lists : Lists ⟨block, read.buckets, read.rows.size⟩ rows) (fallback : Fallback)
    (name : String) : RestingTable.find? fallback ⟨block, read.buckets, read.rows.size⟩ name =
      .ok ((rows.find? (·.1.record.className == name)).map fun row => ⟨block, row.2.toNat⟩) := by
  obtain ⟨first, last, here, there, range⟩ :=
    source.starts.exists_rangeOf source.headed fallback (hashName name).toNat
  have count : rows.length = read.rows.size := lists.count
  have low := (source.start _ _ here).1
  have high := (source.start _ _ there).1
  refine bind_eq_ok_iff.mpr ⟨_, range, ?_⟩
  have found := lists.search_ok source.headed name first (last - first) (by omega)
  have within (index : Nat) (row : Row × UInt32) (present : rows.toArray[index]? = some row)
      (named : (row.1.record.className == name) = true) : first ≤ index ∧ index < last := by
    have listed : read.rows[index]? = some row.1 := by
      rw [List.getElem?_toArray] at present
      rw [← Array.getElem?_toList, ← same, List.getElem?_map, present]
      rfl
    obtain ⟨low, high, below, above, bounds⟩ :=
      starts_of_named source.sound listed (beq_iff_eq.mp named)
    cases here.symm.trans below
    cases there.symm.trans above
    exact bounds
  have whole := Array.find?_extract within
  rw [← Array.find?_toList, ← Array.find?_toList, Array.toList_extract,
    List.extract_eq_take_drop] at whole
  rw [whole] at found
  exact found

end RecordTable.ReadFrom

namespace RestingTable

/-- Whatever the bytes are, loading them ends without a breach, in a cause or in a table. What a
table gives is what its bytes say and does not depend on any fallback: its records in the order
of its rows, the first record of a name as the one that a search for the name finds, and each
part of a record. -/
theorem load_readsInPlace (block : Array UInt8) :
    ∃ answer : Except Malformed RestingTable,
      (∀ fallback, (load fallback block).run = .ok answer) ∧
      ∀ table, answer = .ok table → table.block = block ∧
        ∃ rows : List (Row × UInt32), table.Lists rows ∧
          table.records = .ok (rows.map fun row => table.recordAt row.2.toNat) ∧
          (∀ fallback name, table.find? fallback name =
            .ok ((rows.find? (·.1.record.className == name)).map fun row =>
              table.recordAt row.2.toNat)) ∧
          ∀ row ∈ rows, (table.recordAt row.2.toNat).Gives row.1.record := by
  refine ⟨_, fun fallback => load_mirrors fallback block, fun table accepted => ?_⟩
  cases read : RecordTable.ofBytes block with
  | error cause =>
    rw [read] at accepted
    cases accepted
  | ok found =>
    rw [read] at accepted
    cases accepted
    have source := readFrom_of_ofBytes read
    obtain ⟨rows, same, each⟩ := source.exists_rows
    have lists := source.lists same each
    exact ⟨rfl, rows, lists, lists.records_ok source.headed, source.find?_ok same lists,
      fun row member => (lists.laid member).gives⟩

/-- A header without buckets. -/
example : (load .usual (magic ++ [1, 0, 0, 0] ++ half 0 ++ half 0).toArray).run =
    .ok (.error .tableBuckets) := by decide

end RestingTable
end FrozenHeap
