import FrozenHeap.Proofs.RecordTable.Accepted
import FrozenHeap.RecordTable.Resting

namespace FrozenHeap

open TableLayout RecordTable

/-- The check is never stopped, and answers as a computation without machine words does. -/
def Check.Mirrors (check : Check ε α) (plain : Except ε α) : Prop := check.run = .ok plain

def verdict (answer : Except ε α) : Except ε Unit := answer.map fun _ => ()

@[simp] theorem verdict_bind_pure (answer : Except ε α) (change : α → β) :
    verdict (answer >>= fun value => pure (change value)) = verdict answer := by
  cases answer <;> rfl

theorem ok_bind (value : α) (next : α → Except ε β) : (Except.ok value >>= next) = next value := rfl

theorem sized_ok {n : Nat} (small : n < UInt64.size) : sized n = .ok n := if_pos small

namespace Check.Mirrors

theorem lift {ran : Run α} {next : α → Check ε β} {value : α} {answer : Except ε β}
    (done : ran = .ok value) (tail : Mirrors (next value) answer) :
    Mirrors (liftM ran >>= next) answer := by
  subst done
  exact tail

theorem refusing {condition : Prop} [Decidable condition] {cause : ε} {next : Unit → Check ε Unit}
    {after : Unit → Except ε α} (otherwise : ¬ condition → Mirrors (next ()) (verdict (after ()))) :
    Mirrors (if condition then MonadExcept.throw cause >>= next else next ())
      (verdict (if condition then MonadExcept.throw cause >>= after else after ())) := by
  by_cases refused : condition
  · rw [if_pos refused, if_pos refused]
    rfl
  · rw [if_neg refused, if_neg refused]
    exact otherwise refused

/-- One check after the other, where the second reading needs what the first one read. -/
theorem thence {first second : Check ε Unit} {answer : Except ε α} {after : α → Except ε β}
    (head : Mirrors first (verdict answer))
    (tail : ∀ value, answer = .ok value → Mirrors second (verdict (after value))) :
    Mirrors (first >>= fun _ => second) (verdict (answer >>= after)) := by
  have split : (first >>= fun _ => second).run =
      first.run >>= ExceptT.bindCont fun _ => second := rfl
  rw [Mirrors, split, head]
  cases answer with
  | error cause => rfl
  | ok value => exact tail value rfl

/-- One check after the other, where what is read is put together of both. -/
theorem both {first second : Check ε Unit} {answer : Except ε α} {other : Except ε β}
    {join : α → β → γ} (head : Mirrors first (verdict answer))
    (tail : Mirrors second (verdict other)) :
    Mirrors (first >>= fun _ => second)
      (verdict (answer >>= fun value => other >>= fun last => Pure.pure (join value last))) := by
  refine head.thence fun value _ => ?_
  cases other <;> exact tail

/-- Checking items one by one, as they are read one by one. -/
theorem each {check : Nat → Check ε Unit} {read : Nat → Except ε α} {indexes : List Nat}
    (single : ∀ index ∈ indexes, Mirrors (check index) (verdict (read index))) :
    Mirrors (indexes.forM check) (verdict (indexes.mapM read)) := by
  induction indexes with
  | nil => rfl
  | cons index rest ih =>
    rw [List.mapM_cons]
    exact (single index List.mem_cons_self).both
      (ih fun other member => single other (List.mem_cons_of_mem _ member))

/-- A check whose causes get another form, with an answer of its own behind it. -/
theorem adapted {check : Check ε Unit} {answer : Except ε Unit} (change : ε → δ) (value : α)
    (head : Mirrors check answer) :
    Mirrors (ExceptT.adapt change check >>= fun _ => Pure.pure value)
      ((answer.mapError change).map fun _ => value) := by
  have split : (ExceptT.adapt change check >>= fun _ => Pure.pure value).run =
      ((check.run >>= fun found => Pure.pure (found.mapError change)) >>=
        ExceptT.bindCont fun _ => Pure.pure value) := rfl
  rw [Mirrors, split, head]
  cases answer <;> rfl

end Check.Mirrors

namespace RecordTable

variable {block : Array UInt8} {offset : Nat}

private theorem name?_eq (block : Array UInt8) (offset : Nat) :
    name? block offset = text? block offset >>= ofUtf8? := by
  unfold name? text?
  cases number? block halfBytes offset with
  | none => rfl
  | some length =>
    simp only [Option.bind_eq_bind, Option.bind_some]
    split <;> rfl

private theorem exists_number? (width : Nat) (inside : offset + width ≤ block.size) :
    ∃ n, number? block width offset = some n := ⟨_, if_pos inside⟩

theorem lt_of_number? {n : Nat} (found : number? block halfBytes offset = some n) :
    n < UInt32.size := (holds_of_number? found).1

end RecordTable

namespace RestingRecord

open Check

variable {record : RestingRecord} {entries classes : Nat}

theorem className?_eq (record : RestingRecord) :
    record.className? = RecordTable.number? record.block halfBytes record.place >>=
      name? record.block := by
  rw [className?, nameBytes?]
  cases RecordTable.number? record.block halfBytes record.place with
  | none => rfl
  | some offset => exact (name?_eq _ _).symm

/-- The header of a record near the start of memory is within reach. -/
theorem number?_ok {distance : Nat} (near : record.place < UInt32.size) (small : distance ≤ 16) :
    record.number? distance =
      .ok (RecordTable.number? record.block halfBytes (record.place + distance)) := by
  refine bind_eq_ok_iff.mpr ⟨_, sized_ok ?_, rfl⟩
  unfold UInt64.size UInt32.size at *
  omega

/-- A record within the bytes of a table, as far as its counts say. -/
structure Spans (record : RestingRecord) (entries classes : Nat) : Prop where
  near : record.place < UInt32.size
  entryCount : RecordTable.number? record.block halfBytes (record.place + 8) = some entries
  classCount : RecordTable.number? record.block halfBytes (record.place + 12) = some classes
  inside : record.place + recordSize entries classes ≤ record.block.size

namespace Spans

variable (spans : record.Spans entries classes)
include spans

theorem entryPlace_ok {index : Nat} (below : index ≤ entries) : record.entryPlace index =
    .ok (record.place + recordHeaderBytes + entryBytes * index) := by
  have near := spans.near
  have few := lt_of_number? spans.entryCount
  refine sized_ok ?_
  unfold recordHeaderBytes entryBytes UInt64.size UInt32.size at *
  omega

theorem numberAt_ok (fallback : Fallback) {distance n : Nat} (small : distance ≤ 16)
    (found : RecordTable.number? record.block halfBytes (record.place + distance) = some n) :
    record.numberAt fallback distance = .ok n :=
  bind_eq_ok_iff.mpr ⟨_, number?_ok spans.near small, by rw [found]; rfl⟩

theorem entryCount_ok (fallback : Fallback) : record.entryCount fallback = .ok entries :=
  spans.numberAt_ok fallback (by decide) spans.entryCount

theorem classPlace_ok (fallback : Fallback) {index : Nat} (below : index ≤ classes) :
    record.classPlace fallback index =
      .ok (record.place + recordHeaderBytes + entryBytes * entries + halfBytes * index) := by
  have near := spans.near
  have few := lt_of_number? spans.entryCount
  have short := lt_of_number? spans.classCount
  refine bind_eq_ok_iff.mpr ⟨_, spans.entryCount_ok fallback,
    bind_eq_ok_iff.mpr ⟨_, spans.entryPlace_ok (Nat.le_refl _), sized_ok ?_⟩⟩
  unfold recordHeaderBytes entryBytes halfBytes UInt64.size UInt32.size at *
  omega

private theorem entry_inside {index : Nat} (below : index < entries) :
    record.place + recordHeaderBytes + entryBytes * index + entryBytes ≤ record.block.size := by
  have inside := spans.inside
  have within : entryBytes * (index + 1) ≤ entryBytes * entries := Nat.mul_le_mul_left _ below
  unfold recordSize at inside
  rw [Nat.mul_succ] at within
  omega

private theorem checkEntry_mirrors {index : Nat} (below : index < entries) :
    Mirrors (record.checkEntry index) (verdict (readEntry record.block
      (record.place + recordHeaderBytes + entryBytes * index))) := by
  have near := spans.near
  have few := lt_of_number? spans.entryCount
  have inside := spans.entry_inside below
  generalize placed : record.place + recordHeaderBytes + entryBytes * index = place at inside
  have start : record.entryPlace index = .ok place := placed ▸ spans.entryPlace_ok (by omega)
  have behind : sized (place + halfBytes) = .ok (place + halfBytes) := sized_ok (by
    unfold recordHeaderBytes entryBytes halfBytes UInt64.size UInt32.size at *
    omega)
  unfold entryBytes at inside
  obtain ⟨code, coded⟩ := exists_number? halfBytes
    (show place + halfBytes + halfBytes ≤ record.block.size by unfold halfBytes; omega)
  obtain ⟨field, numbered⟩ := exists_number? halfBytes
    (show place + halfBytes ≤ record.block.size by unfold halfBytes; omega)
  obtain ⟨value, valued⟩ := exists_number? 8
    (show place + rowBytes + 8 ≤ record.block.size by unfold rowBytes; omega)
  refine .lift start (.lift behind ?_)
  simp only [readEntry, coded, numbered, valued, RecordTable.require, ok_bind]
  cases EntryKind.ofCode? code <;> rfl

private theorem checkClass_mirrors (fallback : Fallback) {index : Nat} (below : index < classes) :
    Mirrors (record.checkClass fallback index) (verdict (readClass record.block
      (record.place + recordHeaderBytes + entryBytes * entries + halfBytes * index))) := by
  refine .lift (spans.classPlace_ok fallback (Nat.le_of_lt below)) ?_
  rw [readClass]
  generalize record.place + recordHeaderBytes + entryBytes * entries + halfBytes * index = place
  cases RecordTable.number? record.block halfBytes place with
  | none => rfl
  | some offset =>
    simp only [RecordTable.require, ok_bind, name?_eq]
    cases text? record.block offset >>= ofUtf8? <;> rfl

end Spans

/-- The check of a record near the start of memory answers as reading the record does. -/
theorem check_mirrors (fallback : Fallback) (hash : Nat) (near : record.place < UInt32.size) :
    Mirrors (record.check fallback hash) (verdict (readRecord record.block hash record.place)) := by
  unfold check readRecord
  rw [className?_eq]
  cases RecordTable.number? record.block halfBytes record.place >>= name? record.block with
  | none => rfl
  | some name =>
    simp only [RecordTable.require, ok_bind]
    refine .refusing fun _ => .lift (number?_ok near (by decide)) ?_
    cases counted : RecordTable.number? record.block halfBytes (record.place + 8) with
    | none => rfl
    | some entries =>
      simp only [ok_bind]
      refine .lift (number?_ok near (by decide)) ?_
      cases numbered : RecordTable.number? record.block halfBytes (record.place + 12) with
      | none => rfl
      | some classes =>
        simp only [ok_bind]
        have few := lt_of_number? counted
        have short := lt_of_number? numbered
        have small : record.place + recordSize entries classes < UInt64.size := by
          unfold recordSize recordHeaderBytes entryBytes halfBytes UInt64.size UInt32.size at *
          omega
        refine .lift (sized_ok small) (.refusing fun fits => ?_)
        have spans : record.Spans entries classes := ⟨near, counted, numbered, by omega⟩
        obtain ⟨flags, flagged⟩ := exists_number? halfBytes
          (show record.place + 4 + halfBytes ≤ record.block.size by
            unfold recordSize recordHeaderBytes halfBytes at *
            omega)
        simp only [flagged, ok_bind]
        refine .both (.each fun index member => ?_) (.each fun index member => ?_)
        · exact spans.checkEntry_mirrors (List.mem_range.mp member)
        · exact spans.checkClass_mirrors fallback (List.mem_range.mp member)

end RestingRecord

namespace RestingTable

open Check

variable {table : RestingTable}

/-- A table whose header was read: it has buckets, and its counts have 32 bits. -/
structure Headed (table : RestingTable) : Prop where
  positive : 0 < table.buckets
  narrow : table.buckets < UInt32.size
  few : table.rowCount < UInt32.size

namespace Headed

variable (headed : table.Headed)
include headed

private theorem start?_ok {bucket : Nat} (below : bucket ≤ table.buckets) : table.start? bucket =
    .ok (number? table.block halfBytes (headerBytes + halfBytes * bucket)) := by
  have narrow := headed.narrow
  refine bind_eq_ok_iff.mpr ⟨_, sized_ok ?_, rfl⟩
  unfold headerBytes halfBytes UInt64.size UInt32.size at *
  omega

private theorem checkStarts_mirrors {count bucket previous : Nat} (starts : Array Nat)
    (below : bucket + count ≤ table.buckets + 1) :
    Mirrors (table.checkStarts count bucket previous)
      (verdict (readStarts table.block table.rowCount count (headerBytes + halfBytes * bucket)
        previous starts)) := by
  induction count generalizing bucket previous starts with
  | zero =>
    rw [checkStarts, readStarts]
    by_cases covered : previous = table.rowCount
    · rw [if_pos covered, if_neg (not_not.mpr covered)]
      rfl
    · rw [if_neg covered, if_pos covered]
      rfl
  | succ count ih =>
    rw [checkStarts, readStarts]
    refine .lift (headed.start?_ok (by omega)) ?_
    cases number? table.block halfBytes (headerBytes + halfBytes * bucket) with
    | none => rfl
    | some start =>
      simp only
      by_cases unordered : start < previous ∨ table.rowCount < start
      · rw [if_pos unordered, if_pos unordered]
        rfl
      · rw [if_neg unordered, if_neg unordered]
        exact ih (starts.push start) (by omega)

/-- The row of an index below the row count is within reach. -/
theorem row?_ok {index hash : Nat} (below : index < table.rowCount)
    (found : number? table.block halfBytes (rowsStart table.buckets + rowBytes * index) =
      some hash) :
    table.row? index = .ok ((number? table.block halfBytes
      (rowsStart table.buckets + rowBytes * index + halfBytes)).map (hash, ·)) := by
  have narrow := headed.narrow
  have few := headed.few
  have near : rowsStart table.buckets + rowBytes * index + halfBytes < UInt64.size := by
    unfold rowsStart headerBytes rowBytes halfBytes UInt64.size UInt32.size at *
    omega
  refine bind_eq_ok_iff.mpr ⟨_, sized_ok (Nat.lt_of_le_of_lt (Nat.le_add_right _ _) near), ?_⟩
  rw [found]
  exact bind_eq_ok_iff.mpr ⟨_, sized_ok near, rfl⟩

end Headed

/-- The bucket starts in the bytes of a table. -/
structure Starts (table : RestingTable) (starts : Array Nat) : Prop where
  size : starts.size = table.buckets + 1
  start : ∀ (index start : Nat), starts[index]? = some start →
    number? table.block halfBytes (headerBytes + halfBytes * index) = some start

namespace Starts

variable {starts : Array Nat} (started : table.Starts starts) (headed : table.Headed)
include started headed

theorem exists_rangeOf (fallback : Fallback) (hash : Nat) :
    ∃ first last, starts[hash % table.buckets]? = some first ∧
      starts[hash % table.buckets + 1]? = some last ∧
      table.rangeOf fallback hash = .ok (first, last) := by
  have positive := headed.positive
  have narrow := headed.narrow
  have below : hash % table.buckets < table.buckets := Nat.mod_lt _ positive
  have size := started.size
  have first : hash % table.buckets < starts.size := by omega
  have last : hash % table.buckets + 1 < starts.size := by omega
  refine ⟨_, _, Array.getElem?_eq_getElem first, Array.getElem?_eq_getElem last, ?_⟩
  refine bind_eq_ok_iff.mpr ⟨_, if_neg (Nat.ne_of_gt positive), ?_⟩
  refine bind_eq_ok_iff.mpr ⟨_, headed.start?_ok (Nat.le_of_lt below), ?_⟩
  refine bind_eq_ok_iff.mpr ⟨_, sized_ok ?_, ?_⟩
  · unfold UInt64.size UInt32.size at *
    omega
  refine bind_eq_ok_iff.mpr ⟨_, headed.start?_ok below, ?_⟩
  rw [started.start _ _ (Array.getElem?_eq_getElem first),
    started.start _ _ (Array.getElem?_eq_getElem last)]
  rfl

private theorem checkRow_mirrors (fallback : Fallback) {index : Nat}
    (below : index < table.rowCount)
    (inside : rowsStart table.buckets + rowBytes * table.rowCount ≤ table.block.size) :
    Mirrors (table.checkRow fallback index) (verdict (readRow table.block starts index)) := by
  have size : starts.size - 1 = table.buckets := by
    rw [started.size, Nat.add_sub_cancel]
  have within : rowsStart table.buckets + rowBytes * index + rowBytes ≤ table.block.size := by
    unfold rowBytes at *
    omega
  obtain ⟨hash, hashed⟩ := exists_number? halfBytes (show
    rowsStart table.buckets + rowBytes * index + halfBytes ≤ table.block.size by
      unfold rowBytes halfBytes at *
      omega)
  obtain ⟨place, placed⟩ := exists_number? halfBytes (show
    rowsStart table.buckets + rowBytes * index + halfBytes + halfBytes ≤ table.block.size by
      unfold rowBytes halfBytes at *
      omega)
  obtain ⟨first, last, here, there, range⟩ := started.exists_rangeOf headed fallback hash
  have row := headed.row?_ok below hashed
  rw [placed] at row
  rw [readRow, size, hashed, placed]
  simp only [RecordTable.require, ok_bind]
  refine .lift row (.lift range ?_)
  rw [inBucket, size]
  simp only [here, there, decide_eq_true_eq]
  by_cases bucket : first ≤ index ∧ index < last
  · rw [if_pos bucket, if_neg (not_not.mpr bucket)]
    have checked := (table.recordAt place).check_mirrors fallback hash (lt_of_number? placed)
    rw [verdict_bind_pure]
    exact checked
  · rw [if_neg bucket, if_pos bucket]
    rfl

end Starts
private theorem check_mirrors (fallback : Fallback) (headed : table.Headed) :
    Mirrors (table.check fallback)
      (verdict (readBody table.block table.buckets table.rowCount)) := by
  have narrow := headed.narrow
  have few := headed.few
  have near : rowsStart table.buckets + rowBytes * table.rowCount < UInt64.size := by
    unfold rowsStart headerBytes rowBytes halfBytes UInt64.size UInt32.size at *
    omega
  rw [check, readBody]
  refine .lift (sized_ok (Nat.lt_of_le_of_lt (Nat.le_add_right _ _) near))
    (.lift (sized_ok near) ?_)
  refine .refusing fun inside => ?_
  refine (headed.checkStarts_mirrors #[] (Nat.zero_add _).le).thence fun starts read => ?_
  obtain ⟨rest, rfl, length, each⟩ := starts_of_readStarts read
  have started : table.Starts (#[] ++ rest.toArray) := by
    refine ⟨by simp [length], fun index start present => ?_⟩
    exact (each index start (by simpa using present)).2
  rw [verdict_bind_pure]
  exact .each fun index member =>
    started.checkRow_mirrors headed fallback (List.mem_range.mp member) (Nat.not_lt.mp inside)

theorem load_mirrors (fallback : Fallback) (block : Array UInt8) :
    Mirrors (load fallback block)
      ((ofBytes block).map fun table => ⟨block, table.buckets, table.rows.size⟩) := by
  unfold load ofBytes
  by_cases short : block.size < headerBytes
  · rw [if_pos short, if_pos (.inl short)]
    rfl
  have long : 16 ≤ block.size := Nat.not_lt.mp short
  have front : slice block 0 4 = .ok (block.extract 0 4).toList := if_pos ⟨Nat.zero_le _, by omega⟩
  rw [if_neg short]
  refine .lift front ?_
  by_cases titled : (block.extract 0 4).toList ≠ magic
  · rw [if_pos titled, if_pos (.inr titled)]
    rfl
  rw [if_neg titled, if_neg (not_or.mpr ⟨short, titled⟩)]
  have low : entryAt block 4 = .ok block[4] := by
    rw [entryAt_eq_ok_iff, Array.getElem?_eq_getElem]
  have high : entryAt block 5 = .ok block[5] := by
    rw [entryAt_eq_ok_iff, Array.getElem?_eq_getElem]
  have version : number? block 2 4 = some (LittleEndian.decode [block[4], block[5]]) := by
    rw [number?, if_pos (by omega)]
    congr 2
    apply List.ext_getElem
    · simp
      omega
    · intro index _ below
      obtain _ | _ | index := index
      · simp
      · simp
      · exact absurd below (by simp)
  refine .lift low (.lift high ?_)
  rw [version]
  generalize LittleEndian.decode [block[4], block[5]] = found
  simp only
  by_cases old : found ≠ TableLayout.version
  · rw [if_pos old, if_pos old]
    rfl
  rw [if_neg old, if_neg old]
  obtain ⟨buckets, bucketCount⟩ := exists_number? halfBytes (show 8 + halfBytes ≤ block.size by
    unfold halfBytes
    omega)
  obtain ⟨rowCount, counted⟩ := exists_number? halfBytes (show 12 + halfBytes ≤ block.size by
    unfold halfBytes
    omega)
  rw [bucketCount, counted]
  simp only
  by_cases none_ : buckets = 0
  · rw [if_pos none_, if_pos none_]
    rfl
  rw [if_neg none_, if_neg none_]
  have headed : Headed ⟨block, buckets, rowCount⟩ :=
    ⟨Nat.pos_of_ne_zero none_, lt_of_number? bucketCount, lt_of_number? counted⟩
  have adapted := Mirrors.adapted Malformed.tableCorrupt (⟨block, buckets, rowCount⟩ : RestingTable)
    (check_mirrors fallback headed)
  cases body : readBody block buckets rowCount with
  | error part =>
    rw [body] at adapted
    exact adapted
  | ok table =>
    rw [body] at adapted
    obtain ⟨size, rows, _⟩ := readFrom_of_readBody body
    have same : table.buckets = buckets := by
      rw [RecordTable.buckets, size, Nat.add_sub_cancel]
    change Mirrors _ (Except.ok (⟨block, table.buckets, table.rows.size⟩ : RestingTable))
    rw [same, rows]
    exact adapted

end RestingTable
end FrozenHeap
