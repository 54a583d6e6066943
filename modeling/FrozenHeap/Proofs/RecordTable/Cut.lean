import FrozenHeap.Proofs.RecordTable.Following
import FrozenHeap.Proofs.RecordTable.InPlace
import FrozenHeap.Proofs.RecordTable.Insertion

/-! Tables that are cut short. A front part of a table is refused, or it serves just the records of
the whole: each name of the table is used by some record, so each must be there to its last byte,
and only the padding behind the last of them may be missing. -/

namespace FrozenHeap

open TableLayout RecordTable

/-- A table serves these records: they are listed in their order, and each search finds the first of
them that has the name, or nothing if none has. -/
structure RestingTable.Serves (table : RestingTable) (records : List Record) : Prop where
  count : table.rowCount = records.length
  listed : ∃ views, table.records = .ok views ∧ List.Forall₂ RestingRecord.Gives views records
  found : ∀ fallback name, ∃ view?, table.find? fallback name = .ok view? ∧
    Option.Rel RestingRecord.Gives view? (records.find? (·.className == name))

/-- A table that was read serves the records that were read. -/
theorem RecordTable.ReadFrom.serves {block : Array UInt8} {table : RecordTable}
    (source : ReadFrom block table) :
    RestingTable.Serves ⟨block, table.buckets, table.rows.size⟩ table.records := by
  obtain ⟨rows, same, each⟩ := source.exists_rows
  have lists := source.lists same each
  have records : table.records = rows.map (·.1.record) := by
    rw [RecordTable.records, ← same, List.map_map]
    rfl
  refine ⟨by simp [RecordTable.records], ⟨_, lists.records_ok source.headed, ?_⟩,
    fun fallback name => ⟨_, source.find?_ok same lists fallback name, ?_⟩⟩
  · rw [records, List.forall₂_map_left_iff, List.forall₂_map_right_iff, List.forall₂_same]
    exact fun row member => (lists.laid member).gives
  · rw [records, List.find?_map, Function.comp_def]
    cases found : rows.find? (·.1.record.className == name) with
    | none => exact .none
    | some row => exact .some (lists.laid (List.mem_of_find?_eq_some found)).gives

namespace TableLayout

/-- The names that records use are their own and those of their classes. -/
theorem mem_namesOf_iff {records : List Record} {name : String} : name ∈ namesOf records ↔
    ∃ record ∈ records, name ∈ record.className :: record.classes := by
  rw [namesOf, List.mem_eraseDups, List.mem_flatMap]

private theorem mem_zip_offsetsFrom (size : α → Nat) (start : Nat) (front : List α) (last : α) :
    (last, start + extent size front) ∈
      (front ++ [last]).zip (offsetsFrom size start (front ++ [last])) := by
  induction front generalizing start with
  | nil => exact List.mem_singleton_self _
  | cons head front ih =>
    rw [List.cons_append, offsetsFrom, List.zip_cons_cons]
    refine List.mem_cons_of_mem _ ?_
    have behind := ih (start + size head)
    rwa [Nat.add_assoc] at behind

variable {buckets : Nat} {rows : List Row} {part rest : Array UInt8}

private theorem holds_classes {bytes : List UInt8} {offsets : Std.TreeMap String Nat}
    {record : Record} {place : Nat} (written : Holds bytes place (recordBlock offsets record)) :
    Holds bytes (place + recordHeaderBytes + entryBytes * record.entries.length)
      (record.classes.flatMap fun name => half (offsets.getD name 0)) := by
  have classes := written.right
  have header : halfBytes + halfBytes + halfBytes + halfBytes = recordHeaderBytes := rfl
  simp only [List.length_append, length_half, length_flatMap_of_sized length_entryBlock, header]
    at classes
  rwa [Nat.add_assoc]

private theorem Parts.nameAt_of_rowAt (parts : Parts buckets rows (part ++ rest).toList)
    (small : (part ++ rest).toList.length < UInt32.size) {index : Nat} {row : Row} {place : UInt32}
    (present : rows[index]? = some row) (written : RowAt part buckets index row place)
    {name : String} (used : name ∈ row.record.className :: row.record.classes) :
    NameAt part.toList ((rowNames buckets rows).getD name 0) name := by
  -- What the part says is what was written, since the whole says it too.
  have agrees {offset n m : Nat} (holds : Holds (part ++ rest).toList offset (half n))
      (fits : n < UInt32.size) (found : number? part halfBytes offset = some m) : m = n := by
    have whole := holds.half fits
    rw [Array.toArray_toList, number?_append rest m found] at whole
    exact Option.some.inj whole
  have listed : row.record ∈ rows.map (·.record) :=
    List.mem_map_of_mem (List.mem_of_getElem? present)
  have named := mem_namesOf_iff.mpr ⟨row.record, listed, used⟩
  obtain ⟨fits, _⟩ := parts.name small named
  obtain ⟨start, paired, near, laid⟩ := parts.exists_place small present
  have line := (parts.placed.item length_rowBlock paired).right
  rw [length_half] at line
  cases agrees line near written.placed
  rcases List.mem_cons.mp used with rfl | member
  · obtain ⟨title, _, _, holds, _, _, named, _⟩ := written.record
    have found := number?_of_half holds.left.left.left.left.left
    rwa [← agrees laid.left.left.left.left.left fits found]
  · have here : RestingRecord.Laid ⟨part, place.toNat⟩ row.record :=
      RestingRecord.laid_of_recordAt near written.record
    obtain ⟨offsets, holds, names⟩ := here.classes
    obtain ⟨index, inside, rfl⟩ := List.mem_iff_getElem.mp member
    obtain ⟨length, each⟩ := List.forall₂_iff_get.mp names
    have found := number?_of_half (holds.item (fun _ => length_half _)
      (List.getElem?_eq_getElem (length ▸ inside)))
    have place := (holds_classes laid).item (fun _ => length_half _)
      (List.getElem?_eq_getElem inside)
    rw [← agrees place fits found]
    exact each index _ inside

private theorem padding_of_nameAt {front : List String} {last : String}
    (names : namesOf (rows.map (·.record)) = front ++ [last])
    (split : block buckets rows = part.toList ++ rest.toList)
    (named : NameAt part.toList ((rowNames buckets rows).getD last 0) last) :
    rest.size < 4 ∧ ∀ byte ∈ rest, byte = 0 := by
  have distinct := nodup_eraseDups ((rows.map (·.record)).flatMap fun record =>
    record.className :: record.classes)
  rw [← namesOf, names] at distinct
  have place : (rowNames buckets rows).getD last 0 =
      namesStart buckets rows + extent (fun name => (text name).length) front := by
    rw [rowNames, names]
    refine getD_foldl_insert ?_ (mem_zip_offsetsFrom _ _ front last)
    rwa [List.map_fst_zip (by simp)]
  have inside := named.2.le_length
  rw [place, List.length_append, length_half] at inside
  obtain ⟨before, behind, whole, start⟩ := (parts_block buckets rows).names
  have total := length_block buckets rows
  rw [whole, names] at total
  have none : behind = [] := by
    apply List.eq_nil_of_length_eq_zero
    simp only [List.length_append] at total
    omega
  have shape : part.toList ++ rest.toList = before ++ front.flatMap text ++
      (half (utf8 last).length ++ utf8 last) ++
        List.replicate ((4 - (utf8 last).length % 4) % 4) 0 := by
    rw [← split, whole, names, none, List.flatMap_append, List.flatMap_singleton, text,
      List.append_nil]
    simp only [List.append_assoc]
  have dropped := congrArg (List.drop part.toList.length) shape
  rw [List.drop_left, List.drop_append, List.drop_eq_nil_of_le, List.nil_append,
    List.drop_replicate] at dropped
  · rw [← Array.length_toList, dropped, List.length_replicate]
    refine ⟨by omega, fun byte member => ?_⟩
    rw [← Array.mem_toList_iff, dropped] at member
    exact List.eq_of_mem_replicate member
  · rw [List.length_append, List.length_append, List.length_append, start, length_half,
      length_flatMap fun _ => rfl]
    omega

/-- A front part of a table that is read at all is read as the whole, and only padding
is missing. -/
theorem Ordered.of_cut (ordered : Ordered buckets rows)
    (small : (block buckets rows).length < UInt32.size)
    (split : (block buckets rows).toArray = part ++ rest) {table : RecordTable}
    (read : ofBytes part = .ok table) :
    table = ⟨(startsOf buckets rows).toArray, rows.toArray⟩ ∧ rest.size < 4 ∧
      ∀ byte ∈ rest, byte = 0 := by
  have whole := ofBytes_append rest table read
  rw [← split, ordered.ofBytes_block small] at whole
  cases whole
  have source := readFrom_of_ofBytes read
  have count : RecordTable.buckets ⟨(startsOf buckets rows).toArray, rows.toArray⟩ = buckets := by
    rw [RecordTable.buckets, List.size_toArray, length_startsOf, Nat.add_sub_cancel]
  have bytes : (part ++ rest).toList = block buckets rows := by rw [← split]
  refine ⟨rfl, ?_⟩
  rcases List.eq_nil_or_concat (namesOf (rows.map (·.record))) with none | ⟨front, last, names⟩
  · -- Without names there are no rows, and the whole ends where the rows would start.
    have empty : rows = [] := by
      refine List.eq_nil_iff_forall_not_mem.mpr fun row member => ?_
      have used : row.record.className ∈ namesOf (rows.map (·.record)) :=
        mem_namesOf_iff.mpr ⟨_, List.mem_map_of_mem member, List.mem_cons_self⟩
      rw [none] at used
      cases used
    have total := length_block buckets rows
    have inside := source.inside
    rw [count] at inside
    subst empty
    rw [none, ← bytes, Array.length_toList, Array.size_append] at total
    have gone : rest.size = 0 := by
      simp only [namesStart, recordsStart, List.map_nil, List.flatMap_nil, extent, List.foldr_nil,
        List.length_nil, List.size_toArray] at total inside
      omega
    exact ⟨by omega, fun byte member => by simp [Array.eq_empty_of_size_eq_zero gone] at member⟩
  · have used : last ∈ namesOf (rows.map (·.record)) := by
      rw [names, List.concat_eq_append]
      exact List.mem_append_right _ (List.mem_singleton_self _)
    obtain ⟨record, listed, used⟩ := mem_namesOf_iff.mp used
    obtain ⟨row, member, rfl⟩ := List.mem_map.mp listed
    obtain ⟨index, present⟩ := List.mem_iff_getElem?.mp member
    obtain ⟨_, place, written⟩ := source.row index row (by simpa using present)
    rw [count] at written
    rw [List.concat_eq_append] at names
    have parts := parts_block buckets rows
    rw [← bytes] at parts small
    exact padding_of_nameAt names (by rw [← bytes, Array.toList_append])
      (parts.nameAt_of_rowAt small present written used)

end TableLayout

namespace Roster

variable {roster : Roster} {bucketSize : Nat} {bytes : Array UInt8}

/-- A front part of a table is refused, or it serves the records of the whole, in the same order and
with the same answer to each search; in that case nothing is missing of it but padding. -/
theorem load_cut (written : roster.toBytes bucketSize = .ok bytes) :
    ∃ (full : RestingTable) (records : List Record),
      (∀ fallback, (RestingTable.load fallback bytes).run = .ok (.ok full)) ∧
      full.Serves records ∧ records.Perm roster.records.toList ∧
      ∀ part rest, bytes = part ++ rest →
        (∃ cause, ∀ fallback, (RestingTable.load fallback part).run = .ok (.error cause)) ∨
        ((∀ fallback, (RestingTable.load fallback part).run =
          .ok (.ok { full with block := part })) ∧
          RestingTable.Serves { full with block := part } records ∧
          rest.size < 4 ∧ ∀ byte ∈ rest, byte = 0) := by
  have ordered := roster.ordered_rows (bucketsFor_pos bucketSize roster.records.size)
  have perm := roster.records_rows (bucketsFor bucketSize roster.records.size)
  unfold toBytes at written
  simp only [List.size_toArray] at written
  split at written
  · rename_i small
    cases written
    have whole := ordered.ofBytes_block small
    refine ⟨_, _, fun fallback => by rw [RestingTable.load_mirrors, whole]; rfl,
      (readFrom_of_ofBytes whole).serves, perm, fun part rest split => ?_⟩
    cases read : ofBytes part with
    | error cause =>
      exact .inl ⟨cause, fun fallback => by rw [RestingTable.load_mirrors, read]; rfl⟩
    | ok table =>
      obtain ⟨rfl, padding⟩ := ordered.of_cut small split read
      exact .inr ⟨fun fallback => by rw [RestingTable.load_mirrors, read]; rfl,
        (readFrom_of_ofBytes read).serves, padding⟩
  · cases written

theorem load_cut_colliding : ∃ roster bytes records table cause,
    empty.addAll colliding = .ok roster ∧ roster.toBytes 1 = .ok bytes ∧ records.Perm colliding ∧
      (RestingTable.load .usual (bytes.extract 0 (bytes.size - 2))).run = .ok (.ok table) ∧
      table.Serves records ∧
      (RestingTable.load .usual (bytes.extract 0 (bytes.size - 3))).run = .ok (.error cause) := by
  obtain ⟨roster, gathered, same⟩ := addAll_new empty
    (show ([] ++ colliding.map Record.className).Nodup by decide)
  have same : roster.records.toList = colliding := same
  have written := toBytes_of_colliding same
  generalize whole : (TableLayout.block 2 (colliding.map Row.of)).toArray = bytes at written
  obtain ⟨full, records, _, _, perm, cuts⟩ := load_cut written
  have split (count : Nat) : bytes = bytes.extract 0 (bytes.size - count) ++
      bytes.extract (bytes.size - count) := by simp
  have padded : (RestingTable.load .usual (bytes.extract 0 (bytes.size - 2))).run.toOption.any
      (·.isOk) = true := by
    rw [← whole]
    decide +kernel
  have torn : (RestingTable.load .usual (bytes.extract 0 (bytes.size - 3))).run.toOption.any
      (!·.isOk) = true := by
    rw [← whole]
    decide +kernel
  obtain ⟨answer, torn, refused⟩ := any_toOption_iff.mp torn
  obtain ⟨other, padded, accepted⟩ := any_toOption_iff.mp padded
  rcases cuts _ _ (split 3) with ⟨cause, error⟩ | ⟨loaded, _⟩
  · rcases cuts _ _ (split 2) with ⟨cause, error⟩ | ⟨loaded, serves, _⟩
    · rw [error] at padded
      cases padded
      cases accepted
    · exact ⟨roster, bytes, records, _, cause, gathered, written, same ▸ perm, loaded .usual,
        serves, error .usual⟩
  · rw [loaded] at torn
    cases torn
    cases refused

end Roster
end FrozenHeap
