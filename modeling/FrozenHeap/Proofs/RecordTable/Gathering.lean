import FrozenHeap.Proofs.RecordTable.RoundTrip

/-! Rosters that gather records. Records of distinct classes all find a place, and the table that is
written of them serves each of them under its name, and no other name. -/

namespace FrozenHeap.Roster

/-- Add records one after the other, each under the name of its class. -/
def addAll (roster : Roster) (records : List Record) : Run Roster :=
  records.foldlM (fun roster record => do return (← roster.add record.className record).2) roster

variable {roster : Roster} {record : Record} {records : List Record}

private theorem has_iff {name : String} :
    roster.has name = true ↔ name ∈ roster.records.toList.map (·.className) := by
  rw [has, Array.any_eq_true', List.mem_map]
  exact exists_congr fun record =>
    and_congr Array.mem_toList_iff.symm beq_iff_eq

private theorem add_new (new : record.className ∉ roster.records.toList.map (·.className)) :
    ∃ after, roster.add record.className record = .ok (true, after) ∧
      after.records.toList = roster.records.toList ++ [record] := by
  rw [add, dif_neg fun taken => new (has_iff.mp taken), dif_pos rfl]
  exact ⟨_, rfl, Array.toList_push⟩

/-- Records of new and distinct classes are put behind the others in their order. -/
theorem addAll_new (roster : Roster)
    (distinct : (roster.records.toList.map (·.className) ++ records.map (·.className)).Nodup) :
    ∃ after, roster.addAll records = .ok after ∧
      after.records.toList = roster.records.toList ++ records := by
  induction records generalizing roster with
  | nil => exact ⟨roster, rfl, (List.append_nil _).symm⟩
  | cons record rest ih =>
    have new : record.className ∉ roster.records.toList.map (·.className) := fun taken =>
      (List.nodup_append.mp distinct).2.2 _ taken _ (by simp) rfl
    obtain ⟨next, added, records⟩ := add_new new
    obtain ⟨after, done, behind⟩ := ih next (by
      rw [records, List.map_append, List.append_assoc]
      exact distinct)
    refine ⟨after, ?_, by rw [behind, records, List.append_assoc]; rfl⟩
    rw [addAll, List.foldlM_cons, added]
    exact done

/-- Records of distinct classes are gathered, and a table that is written of them is read back with
just these records, each of which is found under its name, and none under another. -/
theorem roundTrip_addAll (distinct : (records.map (·.className)).Nodup) (bucketSize : Nat) :
    ∃ roster, empty.addAll records = .ok roster ∧ roster.records.toList = records ∧
      ∀ bytes, roster.toBytes bucketSize = .ok bytes →
        ∃ table, RecordTable.ofBytes bytes = .ok table ∧ table.rows.size = records.length ∧
          table.records.Perm records ∧
          (∀ record ∈ records, table.find? record.className = some record) ∧
          ∀ name, name ∉ records.map (·.className) → table.find? name = none := by
  obtain ⟨roster, gathered, same⟩ := addAll_new empty
    (show ([] ++ records.map Record.className).Nodup from distinct)
  have same : roster.records.toList = records := same
  refine ⟨roster, gathered, same, fun bytes written => ?_⟩
  obtain ⟨table, read, sound, perm, names⟩ := ofBytes_toBytes written
  rw [same] at perm
  refine ⟨table, read, ?_, perm, fun record member => ?_, fun name unknown => ?_⟩
  · have size := perm.length_eq
    rwa [RecordTable.records, List.length_map, Array.length_toList] at size
  · exact RecordTable.find?_of_mem sound names (perm.mem_iff.mpr member)
  · rw [RecordTable.find?_eq sound, List.find?_eq_none]
    intro record member named
    rw [← beq_iff_eq.mp named] at unknown
    exact unknown (List.mem_map_of_mem (perm.mem_iff.mp member))

/-- The records of two classes whose names have one hash. -/
def colliding : List Record :=
  [⟨"costarring", [⟨16, .primitive, 7⟩, ⟨24, .reference .opened, 0⟩], ["é", "liquid"], true⟩,
    ⟨"liquid", [⟨16, .reference .closed, 3⟩], ["liquid"], false⟩]

theorem roundTrip_addAll_colliding : hashName "costarring" = hashName "liquid" ∧
    ∃ roster bytes table, empty.addAll colliding = .ok roster ∧
      roster.toBytes 1 = .ok bytes ∧ RecordTable.ofBytes bytes = .ok table ∧
      (∀ record ∈ colliding, table.find? record.className = some record) ∧
      table.find? "é" = none := by
  have distinct : (colliding.map (·.className)).Nodup := by decide
  obtain ⟨roster, gathered, same, reads⟩ := roundTrip_addAll distinct 1
  have ordered : roster.rows 2 = colliding.map Row.of := by
    rw [rows, same]
    exact List.mergeSort_of_pairwise (by decide +kernel)
  have written : (roster.toBytes 1).toOption.any (fun _ => true) = true := by
    have size : bucketsFor 1 roster.records.size = 2 := by
      rw [← Array.length_toList, same]
      rfl
    rw [toBytes, size, ordered]
    decide +kernel
  obtain ⟨bytes, written, _⟩ := any_toOption_iff.mp written
  obtain ⟨table, read, _, _, found, missing⟩ := reads bytes written
  exact ⟨by decide +kernel, roster, bytes, table, gathered, written, read, found,
    missing _ (by decide +kernel)⟩

end FrozenHeap.Roster
