import FrozenHeap.Proofs.Parallel
import FrozenHeap.Proofs.RecordTable.RoundTrip

namespace FrozenHeap

/-- An entry without the place of its object: of a reference, it tells whether it is null. -/
def Entry.gist (entry : Entry) : Entry :=
  match entry.kind with
  | .reference _ => { entry with value := if entry.value = 0 then 0 else 1 }
  | .primitive => entry

theorem Entry.offset_gist (entry : Entry) : entry.gist.offset = entry.offset := by
  unfold gist
  split <;> rfl

theorem Entry.gist_reference {narrow : UInt32} (live : narrow.toUInt64 ≠ 0) (offset : UInt32)
    (region : Region) : (reference offset region narrow).gist = ⟨offset, .reference region, 1⟩ := by
  rw [gist, reference, if_neg live]

/-- Records of one class that have the same parts in some order. -/
structure Record.Alike (one two : Record) : Prop where
  className : one.className = two.className
  isPartial : one.isPartial = two.isPartial
  entries : (one.entries.map Entry.gist).Perm (two.entries.map Entry.gist)
  classes : one.classes.Perm two.classes

namespace TableLayout

variable {records others : List Record} {rows more : List Row} {buckets : Nat}

private theorem sizeOf_eq_of_alike {one two : Record} (alike : one.Alike two) :
    sizeOf one = sizeOf two := by
  have entries := alike.entries.length_eq
  rw [List.length_map, List.length_map] at entries
  rw [sizeOf, sizeOf, entries, alike.classes.length_eq]

private theorem extent_eq_of_alike (alike : List.Forall₂ Record.Alike records others) :
    extent sizeOf records = extent sizeOf others := by
  induction alike with
  | nil => rfl
  | cons first _ ih =>
    simp only [extent, List.foldr_cons] at ih ⊢
    rw [sizeOf_eq_of_alike first, ih]

private theorem namesOf_perm_of_alike (alike : List.Forall₂ Record.Alike records others) :
    (namesOf records).Perm (namesOf others) := by
  have used : (records.flatMap fun record => record.className :: record.classes).Perm
      (others.flatMap fun record => record.className :: record.classes) := by
    induction alike with
    | nil => exact .nil
    | cons first _ ih =>
      rw [List.flatMap_cons, List.flatMap_cons, first.className]
      exact (first.classes.cons _).append ih
  refine (List.perm_ext_iff_of_nodup (nodup_eraseDups _) (nodup_eraseDups _)).mpr fun name => ?_
  rw [List.mem_eraseDups, List.mem_eraseDups, used.mem_iff]

theorem length_block (buckets : Nat) (rows : List Row) : (block buckets rows).length =
    namesStart buckets rows + ((namesOf (rows.map (·.record))).flatMap text).length := by
  rw [block_eq_sections, sections]
  simp only [List.length_append, length_half, LittleEndian.length_encode,
    length_flatMap_of_sized length_half, length_flatMap_of_sized length_rowBlock, length_startsOf,
    length_zip_places, length_flatMap (sizeOf_eq (rowNames buckets rows))]
  unfold namesStart recordsStart rowsStart headerBytes halfBytes
  simp only [magic, List.length_cons, List.length_nil]
  omega

private theorem length_block_eq_of_alike (buckets : Nat)
    (alike : List.Forall₂ Record.Alike (rows.map (·.record)) (more.map (·.record))) :
    (block buckets rows).length = (block buckets more).length := by
  have names := ((namesOf_perm_of_alike alike).flatMap_right text).length_eq
  have count : rows.length = more.length := by
    simpa using alike.length_eq
  rw [length_block, length_block, names, namesStart, namesStart, extent_eq_of_alike alike,
    recordsStart, recordsStart, count]

end TableLayout

/-- The order of the rows of a table, which depends on their names alone. -/
def nameOrder (buckets : Nat) (left right : String) : Ordering :=
  (compare ((hashName left).toNat % buckets) ((hashName right).toNat % buckets)).then
    ((compare (hashName left) (hashName right)).then (compare left right))

instance (buckets : Nat) : Std.TransCmp (nameOrder buckets) :=
  inferInstanceAs (Std.TransCmp (compareLex (compareOn fun name => (hashName name).toNat % buckets)
    (compareLex (compareOn hashName) compare)))

theorem eq_of_nameOrder {buckets : Nat} {left right : String}
    (front : (nameOrder buckets left right).isLE = true)
    (back : (nameOrder buckets right left).isLE = true) : left = right := by
  have same := Std.OrientedCmp.isLE_antisymm front back
  rw [nameOrder, Ordering.then_eq_eq, Ordering.then_eq_eq] at same
  exact Std.LawfulEqOrd.eq_of_compare same.2.2

namespace Roster

variable {one two : Roster} {bucketSize : Nat}

theorem pairwise_names_rows (roster : Roster) (buckets : Nat) :
    ((roster.rows buckets).map (·.record.className)).Pairwise
      fun left right => (nameOrder buckets left right).isLE = true := by
  have hashed (row : Row) (member : row ∈ roster.rows buckets) :
      row.hash = hashName row.record.className := by
    obtain ⟨record, _, rfl⟩ := List.mem_map.mp ((roster.rows_perm buckets).mem_iff.mp member)
    rfl
  rw [List.pairwise_map]
  refine (roster.pairwise_rows buckets).imp_of_mem fun first second ordered => ?_
  rw [Row.order, Row.bucket, Row.bucket, hashed _ first, hashed _ second] at ordered
  exact ordered

private theorem names_rows_eq (names : (one.records.toList.map (·.className)).Perm
    (two.records.toList.map (·.className))) (buckets : Nat) :
    (one.rows buckets).map (·.record.className) = (two.rows buckets).map (·.record.className) := by
  have perm (roster : Roster) : ((roster.rows buckets).map (·.record.className)).Perm
      (roster.records.toList.map (·.className)) := by
    have records := (roster.records_rows buckets).map (·.className)
    rwa [List.map_map] at records
  have same := (perm one).trans (names.trans (perm two).symm)
  have first := one.pairwise_names_rows buckets
  have second := two.pairwise_names_rows buckets
  exact same.eq_of_pairwise (fun _ _ _ _ => eq_of_nameOrder) first second

variable (alike : ∀ record ∈ one.records.toList, ∀ other ∈ two.records.toList,
    record.className = other.className → record.Alike other)
  (names : (one.records.toList.map (·.className)).Perm (two.records.toList.map (·.className)))
include alike names

theorem forall₂_rows (buckets : Nat) : List.Forall₂ Record.Alike
    ((one.rows buckets).map (·.record)) ((two.rows buckets).map (·.record)) := by
  refine forall₂_of_map_eq ?_ fun record member other there =>
    alike record ((one.records_rows buckets).mem_iff.mp member) other
      ((two.records_rows buckets).mem_iff.mp there)
  rw [List.map_map, List.map_map]
  exact names_rows_eq names buckets

/-- Rosters of alike records have tables of one size, or none. -/
theorem isOk_toBytes (bucketSize : Nat) :
    (one.toBytes bucketSize).isOk = (two.toBytes bucketSize).isOk := by
  have count : one.records.size = two.records.size := by
    simpa using names.length_eq
  have size := TableLayout.length_block_eq_of_alike (bucketsFor bucketSize two.records.size)
    (forall₂_rows alike names (bucketsFor bucketSize two.records.size))
  simp only [toBytes, count, List.size_toArray, size]
  split <;> rfl

end Roster
end FrozenHeap
