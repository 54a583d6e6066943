import FrozenHeap.Breach
import FrozenHeap.RecordTable.Layout

namespace FrozenHeap

/-- Records of distinct classes, in the order in which they came. -/
structure Roster where
  records : Array Record
  distinct : (records.toList.map (·.className)).Nodup

namespace Roster

def empty : Roster := ⟨#[], by simp⟩

def has (roster : Roster) (name : String) : Bool := roster.records.any (·.className == name)

/-- Add a record under the name of its class, unless that name has one. -/
def add (roster : Roster) (name : String) (record : Record) : Run (Bool × Roster) :=
  if taken : roster.has name = true then .ok (false, roster)
  else if same : record.className = name then
    .ok (true, {
      records := roster.records.push record
      distinct := by
        rw [Array.toList_push, List.map_append, List.nodup_append]
        refine ⟨roster.distinct, by simp, ?_⟩
        intro other member last listed equal
        have last : last = record.className := by simpa using listed
        obtain ⟨earlier, present, here⟩ := List.mem_map.mp member
        apply taken
        rw [has, Array.any_eq_true']
        exact ⟨earlier, Array.mem_toList_iff.mp present, by simp [here, equal, last, same]⟩ })
  else .error .precondition

/-- How many buckets the table has: full ones, but for the last, and at least one. -/
def bucketsFor (bucketSize rows : Nat) : Nat :=
  max ((rows + max bucketSize 1 - 1) / max bucketSize 1) 1

def rows (roster : Roster) (buckets : Nat) : List Row :=
  (roster.records.toList.map Row.of).mergeSort fun left right => (Row.order buckets left right).isLE

/-- The bytes of the table. All its offsets fit 32 bits, as its length does. -/
def toBytes (roster : Roster) (bucketSize : Nat) : Except Malformed (Array UInt8) :=
  let buckets := bucketsFor bucketSize roster.records.size
  let block := (TableLayout.block buckets (roster.rows buckets)).toArray
  if block.size < UInt32.size then .ok block else .error (.tableOffset block.size)

end Roster
end FrozenHeap
