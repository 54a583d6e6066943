import FrozenHeap.RecordTable.Roster
import FrozenHeap.Proofs.RecordTable.Blocks
import FrozenHeap.Proofs.RecordTable.Search

namespace FrozenHeap

theorem mapM_range_eq_ok {ε α : Type} [Inhabited α] {items : List α} {read : Nat → Except ε α}
    (reads : ∀ index item, items[index]? = some item → read index = .ok item) :
    (List.range items.length).mapM read = .ok items := by
  have each (indexes : List Nat) (inside : ∀ index ∈ indexes, index < items.length) :
      indexes.mapM read = .ok (indexes.map fun index => items[index]?.getD default) := by
    induction indexes with
    | nil => rfl
    | cons index rest ih =>
      have here := inside index List.mem_cons_self
      have present := List.getElem?_eq_getElem here
      rw [List.mapM_cons, reads index _ present,
        ih fun other member => inside other (List.mem_cons_of_mem _ member), List.map_cons, present]
      rfl
  rw [each _ fun index member => List.mem_range.mp member]
  congr 1
  apply List.ext_getElem (by simp)
  intro index inside within
  simp [List.getElem?_eq_getElem within]

/-- In a list that is ordered by a key, the items below a bound come first. -/
theorem lt_countP_iff {key : α → Nat} {items : List α}
    (sorted : items.Pairwise fun left right => key left ≤ key right) {index : Nat} {item : α}
    (present : items[index]? = some item) (bound : Nat) :
    index < items.countP (fun item => decide (key item < bound)) ↔ key item < bound := by
  induction items generalizing index with
  | nil => simp at present
  | cons head rest ih =>
    rw [List.pairwise_cons] at sorted
    have none_below (above : ¬ key head < bound) :
        rest.countP (fun item => decide (key item < bound)) = 0 := by
      rw [List.countP_eq_zero]
      intro other member
      have order := sorted.1 other member
      simp only [decide_eq_true_eq]
      omega
    rw [List.countP_cons]
    cases index with
    | zero =>
      have same : head = item := by simpa using present
      subst same
      by_cases below : key head < bound
      · simp [below]
      · simp [below, none_below below]
    | succ index =>
      rw [List.getElem?_cons_succ] at present
      have behind := ih sorted.2 present
      by_cases below : key head < bound
      · simp [below, behind]
      · have order := sorted.1 item (List.mem_of_getElem? present)
        have none := none_below below
        simp only [below, decide_false, Bool.false_eq_true, if_false, none]
        omega

namespace TableLayout

open RecordTable

variable {bytes : List UInt8} {buckets : Nat} {rows : List Row}

@[simp] theorem length_entryBlock (entry : Entry) : (entryBlock entry).length = entryBytes := by
  simp [entryBlock, halfBytes, entryBytes]

theorem sizeOf_eq (offsets : Std.TreeMap String Nat) (record : Record) :
    sizeOf record = (recordBlock offsets record).length := by
  simp only [recordBlock, List.length_append, length_half,
    length_flatMap_of_sized length_entryBlock, length_flatMap_of_sized fun _ => length_half _]
  unfold sizeOf recordSize recordHeaderBytes halfBytes
  omega

def recordsStart (buckets : Nat) (rows : List Row) : Nat :=
  rowsStart buckets + rowBytes * rows.length

def namesStart (buckets : Nat) (rows : List Row) : Nat :=
  recordsStart buckets rows + extent sizeOf (rows.map (·.record))

/-- The offset of each name that some rows use. -/
def rowNames (buckets : Nat) (rows : List Row) : Std.TreeMap String Nat :=
  nameOffsets (namesStart buckets rows) (namesOf (rows.map (·.record)))

def places (buckets : Nat) (rows : List Row) : List Nat :=
  offsetsFrom sizeOf (recordsStart buckets rows) (rows.map (·.record))

/-- The bytes of a row whose record is at this place. -/
def rowBlock (pair : Row × Nat) : List UInt8 := half pair.1.hash.toNat ++ half pair.2

@[simp] theorem length_rowBlock (pair : Row × Nat) : (rowBlock pair).length = rowBytes := by
  simp [rowBlock, halfBytes, rowBytes]

/-- The parts of a table, each where it is looked for. -/
structure Parts (buckets : Nat) (rows : List Row) (bytes : List UInt8) : Prop where
  magic : Holds bytes 0 magic
  version : Holds bytes 4 (LittleEndian.encode 2 version)
  bucketCount : Holds bytes 8 (half buckets)
  rowCount : Holds bytes 12 (half rows.length)
  starts : Holds bytes headerBytes ((startsOf buckets rows).flatMap half)
  placed : Holds bytes (rowsStart buckets) ((rows.zip (places buckets rows)).flatMap rowBlock)
  records : Holds bytes (recordsStart buckets rows)
    ((rows.map (·.record)).flatMap (recordBlock (rowNames buckets rows)))
  names : Holds bytes (namesStart buckets rows) ((namesOf (rows.map (·.record))).flatMap text)

theorem length_startsOf (buckets : Nat) (rows : List Row) :
    (startsOf buckets rows).length = buckets + 1 := by
  simp [startsOf]

theorem length_zip_places (buckets : Nat) (rows : List Row) :
    (rows.zip (places buckets rows)).length = rows.length := by
  simp [places]

def sections (buckets : Nat) (rows : List Row) : List UInt8 :=
  magic ++ (LittleEndian.encode 2 version ++ (LittleEndian.encode 2 0 ++ (half buckets ++
    (half rows.length ++ ((startsOf buckets rows).flatMap half ++
      ((rows.zip (places buckets rows)).flatMap rowBlock ++
        ((rows.map (·.record)).flatMap (recordBlock (rowNames buckets rows)) ++
          (namesOf (rows.map (·.record))).flatMap text)))))))

theorem block_eq_sections (buckets : Nat) (rows : List Row) :
    block buckets rows = sections buckets rows := by
  simp only [sections, ← List.append_assoc]
  rfl

theorem parts_block (buckets : Nat) (rows : List Row) :
    Parts buckets rows (block buckets rows) := by
  rw [block_eq_sections]
  have whole : Holds (sections buckets rows) 0 (magic ++ _) := Holds.whole _
  have version := whole.right
  have reserved := version.right
  have bucketCount := reserved.right
  have rowCount := bucketCount.right
  have starts := rowCount.right
  have placed := starts.right
  have records := placed.right
  have names := records.right
  simp only [length_half, LittleEndian.length_encode, length_flatMap_of_sized length_half,
    length_flatMap_of_sized length_rowBlock, length_startsOf, length_zip_places,
    length_flatMap (sizeOf_eq (rowNames buckets rows))] at *
  exact {
    magic := whole.left
    version := version.left
    bucketCount := bucketCount.left
    rowCount := rowCount.left
    starts := starts.left
    placed := placed.left
    records := records.left
    names := names }

private theorem readEntry_ok {offset : Nat} {entry : Entry}
    (holds : Holds bytes offset (entryBlock entry)) :
    readEntry bytes.toArray offset = .ok entry := by
  have code : entry.kind.code < UInt32.size := by
    cases entry.kind with
    | reference region => cases region <;> decide
    | primitive => decide
  have field := holds.left.left.half entry.offset.toNat_lt
  have kind := holds.left.right
  have value := holds.right
  rw [List.length_append, length_half, length_half] at value
  rw [length_half] at kind
  have kind := kind.half code
  have value := value.number (show entry.value.toNat < LittleEndian.count 8 from
    entry.value.toNat_lt)
  rw [show halfBytes + halfBytes = rowBytes from rfl] at value
  simp only [readEntry, kind, field, value, require, EntryKind.ofCode?_code, bind,
    Except.bind, pure, Except.pure, UInt32.ofNat_toNat, UInt64.ofNat_toNat]

namespace Parts

variable (parts : Parts buckets rows bytes) (small : bytes.length < UInt32.size)
include parts small

theorem name {name : String} (used : name ∈ namesOf (rows.map (·.record))) :
    (rowNames buckets rows).getD name 0 < UInt32.size ∧
      name? bytes.toArray ((rowNames buckets rows).getD name 0) = some name := by
  obtain ⟨index, inside, same⟩ := List.mem_iff_getElem.mp used
  have within : index < (offsetsFrom (fun name => (text name).length) (namesStart buckets rows)
      (namesOf (rows.map (·.record)))).length := by
    rw [length_offsetsFrom]
    exact inside
  have paired := List.getElem_mem (l := (namesOf (rows.map (·.record))).zip
    (offsetsFrom (fun name => (text name).length) (namesStart buckets rows)
      (namesOf (rows.map (·.record))))) (by rw [List.length_zip]; exact lt_min inside within)
  rw [List.getElem_zip, same] at paired
  have distinct : (((namesOf (rows.map (·.record))).zip
      (offsetsFrom (fun name => (text name).length) (namesStart buckets rows)
        (namesOf (rows.map (·.record))))).map Prod.fst).Nodup := by
    rw [List.map_fst_zip (by simp)]
    exact nodup_eraseDups _
  have found : (rowNames buckets rows).getD name 0 = _ := getD_foldl_insert distinct paired
  have written := parts.names.placed (fun _ => rfl) paired
  have bound := written.le_length
  have head : halfBytes ≤ (text name).length := by
    simp [text]
  rw [found]
  exact ⟨by unfold halfBytes at head; omega, written.name small⟩

private theorem readClass_ok {offset : Nat} {name : String}
    (used : name ∈ namesOf (rows.map (·.record)))
    (holds : Holds bytes offset (half ((rowNames buckets rows).getD name 0))) :
    readClass bytes.toArray offset = .ok name := by
  obtain ⟨fits, found⟩ := parts.name small used
  simp only [readClass, holds.half fits, require, found, bind, Except.bind]

private theorem readRecord_ok {record : Record} {place : Nat}
    (member : record ∈ rows.map (·.record))
    (holds : Holds bytes place (recordBlock (rowNames buckets rows) record)) :
    readRecord bytes.toArray (hashName record.className).toNat place = .ok record := by
  have used (name : String) (here : name ∈ record.className :: record.classes) :
      name ∈ namesOf (rows.map (·.record)) := by
    rw [namesOf, List.mem_eraseDups]
    exact List.mem_flatMap.mpr ⟨record, member, here⟩
  obtain ⟨fits, name⟩ := parts.name small (used record.className List.mem_cons_self)
  have inside := holds.le_length
  rw [← sizeOf_eq] at inside
  have classes := holds.right
  have entries := holds.left.right
  have classCount := holds.left.left.right
  have entryCount := holds.left.left.left.right
  have flags := holds.left.left.left.left.right
  have first := holds.left.left.left.left.left.half fits
  simp only [List.length_append, length_half, length_flatMap_of_sized length_entryBlock] at *
  have few : record.entries.length < UInt32.size := by
    unfold sizeOf recordSize entryBytes at inside
    omega
  have short : record.classes.length < UInt32.size := by
    unfold sizeOf recordSize halfBytes at inside
    omega
  have entryCount : number? bytes.toArray halfBytes (place + 8) = some record.entries.length :=
    entryCount.half few
  have classCount : number? bytes.toArray halfBytes (place + 12) = some record.classes.length :=
    classCount.half short
  have flags : number? bytes.toArray halfBytes (place + 4) =
      some (if record.isPartial then 1 else 0) := flags.half (by split <;> decide)
  have complete : ¬ bytes.toArray.size < place + recordSize record.entries.length
      record.classes.length := by
    rw [List.size_toArray]
    exact Nat.not_lt_of_le inside
  have entriesRead : (List.range record.entries.length).mapM (fun index =>
      readEntry bytes.toArray (place + recordHeaderBytes + entryBytes * index)) =
        .ok record.entries :=
    mapM_range_eq_ok fun _ _ present => readEntry_ok (entries.item length_entryBlock present)
  have classesRead : (List.range record.classes.length).mapM (fun index =>
      readClass bytes.toArray (place + recordHeaderBytes + entryBytes * record.entries.length +
        halfBytes * index)) = .ok record.classes := by
    refine mapM_range_eq_ok fun index name present => ?_
    refine parts.readClass_ok small (used name ?_) ?_
    · exact List.mem_cons_of_mem _ (List.mem_of_getElem? present)
    · have here := classes.item (fun _ => length_half _) present
      rw [← Nat.add_assoc] at here
      exact here
  have whole : ((if record.isPartial then 1 else 0) % 2 == 1) = record.isPartial := by
    cases record.isPartial <;> rfl
  simp only [readRecord, first, name, require, entryCount, classCount, flags, complete, entriesRead,
    classesRead, whole, Option.bind_some, ne_eq, not_true_eq_false, if_false, bind, Except.bind,
    pure, Except.pure]

theorem exists_place {index : Nat} {row : Row} (present : rows[index]? = some row) :
    ∃ place, (rows.zip (places buckets rows))[index]? = some (row, place) ∧
      place < UInt32.size ∧ Holds bytes place (recordBlock (rowNames buckets rows) row.record) := by
  obtain ⟨inside, same⟩ := List.getElem?_eq_some_iff.mp present
  have within : index < (places buckets rows).length := by
    simpa [places] using inside
  have paired : (rows.zip (places buckets rows))[index]? =
      some (row, (places buckets rows)[index]) := by
    rw [List.getElem?_zip_eq_some]
    exact ⟨present, List.getElem?_eq_getElem within⟩
  have record : ((rows.map (·.record)).zip (places buckets rows))[index]? =
      some (row.record, (places buckets rows)[index]) := by
    rw [List.getElem?_zip_eq_some]
    exact ⟨by simp [present], List.getElem?_eq_getElem within⟩
  have written := parts.records.placed (sizeOf_eq _) (List.mem_of_getElem? record)
  have bound := written.le_length
  rw [← sizeOf_eq] at bound
  unfold sizeOf recordSize recordHeaderBytes at bound
  exact ⟨_, paired, by omega, written⟩

end Parts

/-- Rows whose hash is the one of their record's name, ordered by bucket. -/
structure Ordered (buckets : Nat) (rows : List Row) : Prop where
  positive : 0 < buckets
  hashed : ∀ row ∈ rows, row.hash = hashName row.record.className
  sorted : rows.Pairwise fun left right => left.bucket buckets ≤ right.bucket buckets

private theorem getElem?_startsOf {bucket : Nat} (inside : bucket ≤ buckets) :
    (startsOf buckets rows).toArray[bucket]? =
      some (rows.countP fun row => decide (row.bucket buckets < bucket)) := by
  simp [startsOf, List.getElem?_range (Nat.lt_succ_of_le inside)]

namespace Ordered

variable (ordered : Ordered buckets rows)
include ordered

private theorem bucket_lt (row : Row) : row.bucket buckets < buckets :=
    Nat.mod_lt _ ordered.positive

theorem inBucket {index : Nat} {row : Row} (present : rows[index]? = some row) :
    RecordTable.inBucket (startsOf buckets rows).toArray row.hash.toNat index = true := by
  have bound := ordered.bucket_lt row
  have size : (startsOf buckets rows).toArray.size - 1 = buckets := by
    rw [List.size_toArray, length_startsOf, Nat.add_sub_cancel]
  have next : row.bucket buckets + 1 ≤ buckets := bound
  have below := lt_countP_iff ordered.sorted present (row.bucket buckets)
  have above := lt_countP_iff ordered.sorted present (row.bucket buckets + 1)
  have bucket : row.hash.toNat % buckets = row.bucket buckets := rfl
  rw [RecordTable.inBucket, size]
  simp only [bucket, getElem?_startsOf (Nat.le_of_lt bound),
    getElem?_startsOf next, decide_eq_true_eq]
  omega

theorem sound : RecordTable.Sound ⟨(startsOf buckets rows).toArray, rows.toArray⟩ := by
  intro index row present
  have present : rows[index]? = some row := by simpa using present
  exact ⟨ordered.hashed row (List.mem_of_getElem? present), ordered.inBucket present⟩

private theorem readRow_ok (parts : Parts buckets rows bytes) (small : bytes.length < UInt32.size)
    {index : Nat} {row : Row} (present : rows[index]? = some row) :
    readRow bytes.toArray (startsOf buckets rows).toArray index = .ok row := by
  obtain ⟨place, paired, fits, written⟩ := parts.exists_place small present
  have line := parts.placed.item length_rowBlock paired
  have hash := line.left.half row.hash.toNat_lt
  have place_ := line.right.half fits
  have size : (startsOf buckets rows).toArray.size - 1 = buckets := by
    rw [List.size_toArray, length_startsOf, Nat.add_sub_cancel]
  have member := List.mem_of_getElem? present
  have record := parts.readRecord_ok small (List.mem_map_of_mem member) written
  rw [← ordered.hashed row member] at record
  rw [length_half] at place_
  simp only [readRow, size, hash, place_, require, ordered.inBucket present, record, if_true, bind,
    Except.bind, pure, Except.pure, UInt32.ofNat_toNat]

end Ordered

private theorem readStarts_ok {rowCount : Nat} (few : rowCount < UInt32.size) {starts : List Nat}
    {offset previous : Nat} (read : Array Nat)
    (holds : Holds bytes offset (starts.flatMap half))
    (sorted : (previous :: starts).Pairwise (· ≤ ·)) (bounded : ∀ start ∈ starts, start ≤ rowCount)
    (covers : (previous :: starts).getLast (List.cons_ne_nil _ _) = rowCount) :
    readStarts bytes.toArray rowCount starts.length offset previous read =
      .ok (read ++ starts.toArray) := by
  induction starts generalizing offset previous read with
  | nil =>
    have same : previous = rowCount := covers
    simp [readStarts, same]
  | cons start rest ih =>
    rw [List.flatMap_cons] at holds
    rw [List.pairwise_cons] at sorted
    have bound := bounded start List.mem_cons_self
    have order := sorted.1 start List.mem_cons_self
    have here := holds.left.half (Nat.lt_of_le_of_lt bound few)
    have behind := holds.right
    rw [length_half] at behind
    rw [List.getLast_cons (List.cons_ne_nil _ _)] at covers
    have later := ih (read.push start) behind sorted.2
      (fun other member => bounded other (List.mem_cons_of_mem _ member)) covers
    have fine : ¬ (start < previous ∨ rowCount < start) := by omega
    simp only [List.length_cons, readStarts, here, if_neg fine, later]
    simp

private theorem le_of_mem_startsOf {start : Nat} (member : start ∈ startsOf buckets rows) :
    start ≤ rows.length := by
  obtain ⟨bucket, _, rfl⟩ := List.mem_map.mp member
  exact List.countP_le_length

private theorem Ordered.starts_ok (ordered : Ordered buckets rows)
    (parts : Parts buckets rows bytes) (few : rows.length < UInt32.size) :
    readStarts bytes.toArray rows.length (buckets + 1) headerBytes 0 #[] =
      .ok (startsOf buckets rows).toArray := by
  have sorted : (0 :: startsOf buckets rows).Pairwise (· ≤ ·) := by
    rw [List.pairwise_cons]
    refine ⟨fun _ _ => Nat.zero_le _, ?_⟩
    rw [startsOf, List.pairwise_map]
    refine List.pairwise_lt_range.imp ?_
    intro low high order
    apply List.countP_mono_left
    intro row _ below
    simp only [decide_eq_true_eq] at below ⊢
    omega
  have covers : (0 :: startsOf buckets rows).getLast (List.cons_ne_nil _ _) = rows.length := by
    have last : startsOf buckets rows = (List.range buckets).map
        (fun bucket => rows.countP fun row => decide (row.bucket buckets < bucket)) ++
          [rows.length] := by
      rw [startsOf, List.range_succ, List.map_append, List.map_singleton]
      congr 2
      rw [List.countP_eq_length]
      intro row _
      simpa using ordered.bucket_lt row
    simp [last]
  have read := readStarts_ok few #[] parts.starts sorted (fun _ => le_of_mem_startsOf) covers
  rw [length_startsOf] at read
  simpa using read

/-- A table that was written is read back with its rows. -/
theorem Ordered.ofBytes_block (ordered : Ordered buckets rows)
    (small : (block buckets rows).length < UInt32.size) :
    RecordTable.ofBytes (block buckets rows).toArray =
      .ok ⟨(startsOf buckets rows).toArray, rows.toArray⟩ := by
  have parts := parts_block buckets rows
  have names := parts.names.le_length
  have inside := parts.placed.le_length
  have front := parts.starts.le_length
  rw [length_flatMap_of_sized length_rowBlock, length_zip_places] at inside
  rw [length_flatMap_of_sized length_half, length_startsOf] at front
  have few : rows.length < UInt32.size := by
    unfold rowBytes at inside
    omega
  have narrow : buckets < UInt32.size := by
    unfold halfBytes at front
    omega
  have titled : ((block buckets rows).toArray.extract 0 4).toList = magic := parts.magic.extract
  have version := parts.version.number (by decide)
  have bucketCount := parts.bucketCount.half narrow
  have rowCount := parts.rowCount.half few
  have starts := ordered.starts_ok parts few
  have rowsRead := mapM_range_eq_ok fun _ _ present => ordered.readRow_ok parts small present
  have long : ¬ ((block buckets rows).toArray.size < headerBytes ∨
      ((block buckets rows).toArray.extract 0 4).toList ≠ magic) := by
    rw [titled, List.size_toArray, not_or]
    exact ⟨by omega, fun different => different rfl⟩
  have complete : ¬ (block buckets rows).toArray.size <
      rowsStart buckets + rowBytes * rows.length := by
    rw [List.size_toArray]
    exact Nat.not_lt_of_le inside
  have body : readBody (block buckets rows).toArray buckets rows.length =
      .ok ⟨(startsOf buckets rows).toArray, rows.toArray⟩ := by
    simp only [readBody, if_neg complete, starts, rowsRead, bind, Except.bind, pure, Except.pure]
  have some_ : buckets ≠ 0 := Nat.ne_of_gt ordered.positive
  simp only [RecordTable.ofBytes, if_neg long, version, bucketCount, rowCount, body, if_neg some_,
    bind, Except.bind, pure, Except.pure, ne_eq, not_true_eq_false, if_false]

end TableLayout

instance (buckets : Nat) : Std.TransCmp (Row.order buckets) :=
  inferInstanceAs (Std.TransCmp (compareLex (compareOn (Row.bucket buckets))
    (compareLex (compareOn Row.hash) (compareOn fun row => row.record.className))))

private theorem Row.bucket_le_of_order {buckets : Nat} {left right : Row}
    (order : (Row.order buckets left right).isLE = true) :
    left.bucket buckets ≤ right.bucket buckets := by
  cases compared : compare (left.bucket buckets) (right.bucket buckets) with
  | lt => exact Nat.le_of_lt (Nat.compare_eq_lt.mp compared)
  | eq => exact Nat.le_of_eq (Nat.compare_eq_eq.mp compared)
  | gt =>
    rw [Row.order, compared] at order
    cases order

namespace Roster

variable {roster : Roster} {bucketSize : Nat} {bytes : Array UInt8}

theorem rows_perm (roster : Roster) (buckets : Nat) :
    (roster.rows buckets).Perm (roster.records.toList.map Row.of) := List.mergeSort_perm _ _

theorem pairwise_rows (roster : Roster) (buckets : Nat) : (roster.rows buckets).Pairwise
    fun left right => (Row.order buckets left right).isLE = true := by
  have total (left right : Row) :
      ((Row.order buckets left right).isLE || (Row.order buckets right left).isLE) = true := by
    have swapped : Row.order buckets right left = (Row.order buckets left right).swap :=
      Std.OrientedCmp.eq_swap
    rw [swapped]
    cases Row.order buckets left right <;> rfl
  have chain (low middle high : Row) (first : (Row.order buckets low middle).isLE = true)
      (second : (Row.order buckets middle high).isLE = true) :
      (Row.order buckets low high).isLE = true := Std.TransCmp.isLE_trans first second
  exact List.pairwise_mergeSort chain total _

theorem ordered_rows (roster : Roster) {buckets : Nat} (positive : 0 < buckets) :
    TableLayout.Ordered buckets (roster.rows buckets) where
  positive := positive
  hashed row member := by
    obtain ⟨record, _, rfl⟩ := List.mem_map.mp ((roster.rows_perm buckets).mem_iff.mp member)
    rfl
  sorted := (roster.pairwise_rows buckets).imp Row.bucket_le_of_order

theorem bucketsFor_pos (bucketSize rows : Nat) : 0 < bucketsFor bucketSize rows :=
  Nat.lt_of_lt_of_le Nat.one_pos (Nat.le_max_right _ _)

theorem records_rows (roster : Roster) (buckets : Nat) :
    ((roster.rows buckets).map (·.record)).Perm roster.records.toList := by
  refine ((roster.rows_perm buckets).map (·.record)).trans (List.Perm.of_eq ?_)
  rw [List.map_map]
  exact List.map_id _

theorem ofBytes_toBytes_rows (written : roster.toBytes bucketSize = .ok bytes) :
    ∃ table, RecordTable.ofBytes bytes = .ok table ∧ table.Sound ∧ table.records =
      (roster.rows (bucketsFor bucketSize roster.records.size)).map (·.record) := by
  have ordered := roster.ordered_rows (bucketsFor_pos bucketSize roster.records.size)
  unfold toBytes at written
  simp only [List.size_toArray] at written
  split at written
  · rename_i small
    cases written
    exact ⟨_, ordered.ofBytes_block small, ordered.sound, rfl⟩
  · cases written

/-- The table of a roster is read back with the records of the roster, each of which is found under
its name alone. -/
theorem ofBytes_toBytes (written : roster.toBytes bucketSize = .ok bytes) :
    ∃ table, RecordTable.ofBytes bytes = .ok table ∧ table.Sound ∧
      table.records.Perm roster.records.toList ∧ (table.records.map (·.className)).Nodup := by
  obtain ⟨table, read, sound, rows⟩ := ofBytes_toBytes_rows written
  have records : table.records.Perm roster.records.toList := rows ▸ roster.records_rows _
  exact ⟨table, read, sound, records, (records.map (·.className)).nodup_iff.mpr roster.distinct⟩

end Roster
end FrozenHeap
