import FrozenHeap.Proofs.RecordTable.Gathering
import FrozenHeap.Proofs.RecordTable.Likeness

/-! The order in which records come to a roster. The order of rows tells any two classes apart, also
those whose names have one hash. So the rows of a table depend on which records the roster has, and
the bytes, in which the names follow each other by their first use, depend on the rows alone. -/

namespace FrozenHeap

private theorem Row.className_eq_of_order {buckets : Nat} {left right : Record}
    (front : (Row.order buckets (Row.of left) (Row.of right)).isLE = true)
    (back : (Row.order buckets (Row.of right) (Row.of left)).isLE = true) :
    left.className = right.className := eq_of_nameOrder front back

namespace Roster

variable {one two : Roster} {records others : List Record}

private theorem rows_eq_of_perm (perm : one.records.toList.Perm two.records.toList)
    (buckets : Nat) :
    one.rows buckets = two.rows buckets := by
  have same : (one.rows buckets).Perm (two.rows buckets) :=
    (one.rows_perm buckets).trans ((perm.map Row.of).trans (two.rows_perm buckets).symm)
  have made {row : Row} (member : row ∈ one.rows buckets) : ∃ record ∈ one.records.toList,
      Row.of record = row := List.mem_map.mp ((one.rows_perm buckets).mem_iff.mp member)
  refine same.eq_of_pairwise ?_ (one.pairwise_rows buckets) (two.pairwise_rows buckets)
  intro left right here there front back
  obtain ⟨record, member, rfl⟩ := made here
  obtain ⟨other, listed, rfl⟩ := made (same.mem_iff.mpr there)
  rw [List.inj_on_of_nodup_map one.distinct member listed (Row.className_eq_of_order front back)]

private theorem toBytes_eq_of_perm (perm : one.records.toList.Perm two.records.toList)
    (bucketSize : Nat) :
    one.toBytes bucketSize = two.toBytes bucketSize := by
  have count : one.records.size = two.records.size := by simpa using perm.length_eq
  rw [toBytes, toBytes, count, rows_eq_of_perm perm]

/-- Records of distinct classes are all gathered in whichever order they come, and the table that is
written of them is the same, or fails in the same way. -/
theorem toBytes_addAll_eq_of_perm (distinct : (records.map (·.className)).Nodup)
    (perm : records.Perm others) (bucketSize : Nat) :
    ∃ one two, empty.addAll records = .ok one ∧ empty.addAll others = .ok two ∧
      one.records.toList = records ∧ two.records.toList = others ∧
      one.toBytes bucketSize = two.toBytes bucketSize := by
  have also : (others.map (·.className)).Nodup := (perm.map _).nodup_iff.mp distinct
  obtain ⟨one, first, gathered⟩ := addAll_new empty
    (show ([] ++ records.map Record.className).Nodup from distinct)
  obtain ⟨two, second, regathered⟩ := addAll_new empty
    (show ([] ++ others.map Record.className).Nodup from also)
  have gathered : one.records.toList = records := gathered
  have regathered : two.records.toList = others := regathered
  refine ⟨one, two, first, second, gathered, regathered, toBytes_eq_of_perm ?_ bucketSize⟩
  rw [gathered, regathered]
  exact perm

/-- The bytes of the table of two records whose names have one hash. -/
theorem toBytes_of_colliding (gathered : one.records.toList = colliding) :
    one.toBytes 1 = .ok (TableLayout.block 2 (colliding.map Row.of)).toArray := by
  have ordered : one.rows 2 = colliding.map Row.of := by
    rw [rows, gathered]
    exact List.mergeSort_of_pairwise (by decide +kernel)
  have size : bucketsFor 1 one.records.size = 2 := by
    rw [← Array.length_toList, gathered]
    rfl
  rw [toBytes, size, ordered]
  exact if_pos (by decide +kernel)

theorem toBytes_addAll_eq_of_perm_colliding : hashName "costarring" = hashName "liquid" ∧
    ∃ one two bytes, empty.addAll colliding = .ok one ∧ empty.addAll colliding.reverse = .ok two ∧
      one.records ≠ two.records ∧ one.toBytes 1 = .ok bytes ∧ two.toBytes 1 = .ok bytes ∧
      bytes.size = 172 := by
  obtain ⟨one, two, first, second, gathered, regathered, same⟩ :=
    toBytes_addAll_eq_of_perm (show (colliding.map (·.className)).Nodup by decide)
      colliding.reverse_perm.symm 1
  have differ : one.records ≠ two.records := by
    intro equal
    have equal : colliding = colliding.reverse := by rw [← regathered, ← equal, gathered]
    exact absurd equal (by decide)
  have written := toBytes_of_colliding gathered
  exact ⟨by decide +kernel, one, two, _, first, second, differ, written, same ▸ written,
    by decide +kernel⟩

end Roster
end FrozenHeap
