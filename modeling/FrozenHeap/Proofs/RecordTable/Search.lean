import FrozenHeap.RecordTable
import Mathlib.Data.List.Find
import Mathlib.Data.List.Nodup

namespace FrozenHeap

/-- Items outside of a range that holds all matches can be left out of a search. -/
theorem Array.find?_extract {items : Array α} {first last : Nat} {accepts : α → Bool}
    (inside : ∀ index item, items[index]? = some item → accepts item = true →
      first ≤ index ∧ index < last) :
    (items.extract first last).find? accepts = items.find? accepts := by
  have before : (items.toList.take first).find? accepts = none := by
    rw [List.find?_eq_none]
    intro item member accepted
    obtain ⟨index, here⟩ := List.mem_iff_getElem?.mp member
    rw [List.getElem?_take] at here
    split at here
    · have bounds := inside index item (by simpa using here) accepted
      omega
    · cases here
  have behind : (items.toList.drop last).find? accepts = none := by
    rw [List.find?_eq_none]
    intro item member accepted
    obtain ⟨index, here⟩ := List.mem_iff_getElem?.mp member
    rw [List.getElem?_drop] at here
    have bounds := inside (last + index) item (by simpa using here) accepted
    omega
  have front := congrArg (List.find? accepts) (List.take_append_drop last items.toList)
  rw [List.find?_append, behind, Option.or_none] at front
  have middle := congrArg (List.find? accepts)
    (List.take_append_drop first (items.toList.take last))
  rw [List.find?_append] at middle
  have skipped : ((items.toList.take last).take first).find? accepts = none := by
    rw [List.find?_eq_none] at before ⊢
    intro item member
    rw [List.take_take] at member
    exact before item (List.take_subset_take_left _ (Nat.min_le_left _ _) member)
  rw [skipped, Option.none_or, front] at middle
  rw [← Array.find?_toList, ← Array.find?_toList, Array.toList_extract, ← middle,
    List.extract_eq_take_drop, List.drop_take]

namespace RecordTable

/-- Each row is in the bucket of its hash, which is the hash of its record's name. -/
def Sound (table : RecordTable) : Prop :=
  ∀ (index : Nat) (row : Row), table.rows[index]? = some row →
    row.hash = hashName row.record.className ∧
      inBucket table.starts row.hash.toNat index = true

variable {table : RecordTable} {name : String}

/-- A row of a name lies between the starts of the bucket of the name's hash. -/
theorem starts_of_named (sound : table.Sound) {index : Nat} {row : Row}
    (present : table.rows[index]? = some row) (named : row.record.className = name) :
    ∃ first last, table.starts[(hashName name).toNat % table.buckets]? = some first ∧
      table.starts[(hashName name).toNat % table.buckets + 1]? = some last ∧
      first ≤ index ∧ index < last := by
  obtain ⟨hash, bucket⟩ := sound index row present
  rw [hash, named, inBucket] at bucket
  rw [buckets]
  split at bucket
  · rename_i first last here there
    exact ⟨first, last, here, there, of_decide_eq_true bucket⟩
  · cases bucket

/-- The search through one bucket finds the first record of the name. -/
theorem find?_eq (sound : table.Sound) :
    table.find? name = table.records.find? (·.className == name) := by
  by_cases exists_ : ∃ row ∈ table.rows, row.record.className = name
  · obtain ⟨row, member, named⟩ := exists_
    obtain ⟨index, present⟩ := Array.mem_iff_getElem?.mp member
    obtain ⟨first, last, here, there, _⟩ := starts_of_named sound present named
    have bucket : (table.rows.extract first last).find?
        (fun row => row.hash == hashName name && row.record.className == name) =
          table.rows.find? (·.record.className == name) := by
      have same (row : Row) (member : row ∈ table.rows) :
          (row.hash == hashName name && row.record.className == name) =
            (row.record.className == name) := by
        obtain ⟨index, present⟩ := Array.mem_iff_getElem?.mp member
        by_cases named : row.record.className = name
        · simp [(sound index row present).1, named]
        · simp [named]
      rw [Array.find?_extract]
      · rw [← Array.find?_toList, ← Array.find?_toList]
        exact List.find?_congr fun row member => same row (Array.mem_toList_iff.mp member)
      · intro index row present accepted
        rw [same row (Array.mem_of_getElem? present)] at accepted
        obtain ⟨low, high, found, other, bounds⟩ :=
          starts_of_named sound present (by simpa using accepted)
        rw [here] at found
        rw [there] at other
        cases found
        cases other
        exact bounds
    simp only [find?, here, there, bucket, Option.bind_eq_bind, Option.bind_some, records,
      List.find?_map]
    rw [← Array.find?_toList, Option.map_eq_bind]
    rfl
  · have absent : table.records.find? (·.className == name) = none := by
      rw [List.find?_eq_none]
      intro record member named
      obtain ⟨row, listed, rfl⟩ := List.mem_map.mp member
      exact exists_ ⟨row, Array.mem_toList_iff.mp listed, by simpa using named⟩
    rw [absent, Option.eq_none_iff_forall_ne_some]
    intro record found
    obtain ⟨first, _, found⟩ := Option.bind_eq_some_iff.mp found
    obtain ⟨last, _, found⟩ := Option.bind_eq_some_iff.mp found
    obtain ⟨row, found, _⟩ := Option.bind_eq_some_iff.mp found
    have accepted := Array.find?_some found
    have listed := Array.mem_of_find?_eq_some found
    refine exists_ ⟨row, ?_, ?_⟩
    · obtain ⟨index, inside, same⟩ := Array.mem_extract_iff_getElem.mp listed
      exact same ▸ Array.getElem_mem _
    · simp only [Bool.and_eq_true, beq_iff_eq] at accepted
      exact accepted.2

/-- Where names are distinct, each record is found by its name. -/
theorem find?_of_mem (sound : table.Sound)
    (distinct : (table.records.map (·.className)).Nodup) {record : Record}
    (member : record ∈ table.records) : table.find? record.className = some record := by
  rw [find?_eq sound]
  cases found : table.records.find? (·.className == record.className) with
  | none =>
    have absent := List.find?_eq_none.mp found record member
    simp at absent
  | some other =>
    have same : other.className = record.className := by simpa using List.find?_some found
    exact congrArg some
      (List.inj_on_of_nodup_map distinct (List.mem_of_find?_eq_some found) member same)

end RecordTable
end FrozenHeap
