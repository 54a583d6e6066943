import FrozenHeap.Proofs.Recording.Attempts
import FrozenHeap.Proofs.Recording.Visits
import FrozenHeap.Proofs.Screening.Nominations
import Mathlib.Algebra.Order.BigOperators.Group.List
import Mathlib.Algebra.Order.Group.Nat
import Mathlib.Data.List.Perm.Subperm

namespace FrozenHeap

/-- An attempt ends in a value, unless it exceeds the capacity of a region; then that is
its failure. -/
def HingesOn (exceeds : Prop) (region : Region) (capacity : UInt64) : Outcome α → Prop
  | .ok _ => ¬ exceeds
  | .error failure => exceeds ∧ failure = .regionOverflow region capacity

namespace Recording

/-- Some objects behind a root have no copies, and do not find room together in a region. -/
def Exceeds (recording : Recording) (live : Live) (region : Region) (root : ObjectId) : Prop :=
  ∃ objects : List ObjectId, objects.Nodup ∧
    (∀ object ∈ objects, live.Reaches root object ∧ object ∉ recording.copies) ∧
    recording.draft.capacity.toNat <
      wordBytes * ((recording.draft.image region).words.size + (objects.map live.extent).sum)

/-- Some objects behind a static field have no copies, and do not find room together in a region. -/
def Overfills (recording : Recording) (live : Live) (region : Region)
    (field : ClassId × UInt32) : Prop :=
  ∃ root, live.static? field.1 field.2 = some (.ref root) ∧ recording.Exceeds live region root

end Recording

private theorem Live.visits_of_reaches {live : Live} {copies : Copies} {seen : Seen}
    {root object : ObjectId}
    (linked : ∀ holder target, holder ∈ copies → live.Refers holder target → target ∈ copies)
    (known : ∀ object, seen.contains object = true → object ∈ copies)
    (path : live.Reaches root object) (uncopied : object ∉ copies) :
    live.Visits seen root object := by
  have fresh {object : ObjectId} (uncopied : object ∉ copies) : seen.contains object = false :=
    Bool.eq_false_iff.mpr fun met => uncopied (known object met)
  induction path with
  | refl => exact .root (fresh uncopied)
  | tail _ edge ih =>
    exact .next (ih fun copied => uncopied (linked _ _ copied edge)) edge (fresh uncopied)

/-- Different objects of a list need no more room than the list. -/
theorem Live.sum_extent_le (live : Live) {objects others : List ObjectId} (distinct : objects.Nodup)
    (among : objects ⊆ others) :
    (objects.map live.extent).sum ≤ (others.map live.extent).sum := by
  obtain ⟨same, perm, part⟩ := distinct.subperm among
  rw [← (perm.map live.extent).sum_nat]
  exact (part.map live.extent).sum_le_sum fun _ _ => Nat.zero_le _

namespace Walk

variable {live : Live} {screening : Screening} {region : Region} {before : Draft} {copies : Copies}
  {seen : Seen} {root : ObjectId} {walked : Nat} {recording : Recording}

/-- What a walk copied, it met, and it had no copy before. -/
theorem Log.uncopied {walk : Walk} {object : ObjectId}
    (log : Log live region before copies seen walk)
    (member : object ∈ walk.copied) : object ∈ walk.met ∧ object ∉ copies := by
  rw [← Array.mem_toList_iff, log.copied, List.mem_filter, Array.mem_toList_iff] at member
  refine ⟨member.1, fun old => ?_⟩
  obtain ⟨place, found⟩ := mem_copies_iff.mp old
  simp [found] at member

/-- Where an object finds no room, what was copied so far and the object itself are too much. -/
theorem exceeds_of_full {stack rest : List ObjectId} {walk : Walk} {object : ObjectId}
    {portrait : Portrait} {old fresh : List Tile}
    (laying : Laying live region recording.draft root old stack walk fresh)
    (runs : Runs live screening region [root]
      (Walk.start recording.draft recording.copies seen walked) (object :: rest) walk)
    (found : live.portrait? object = some portrait) (new : walk.seen.contains object = false)
    (uncached : walk.copies[object]? = none)
    (full : walk.draft.Full region portrait.slots) : recording.Exceeds live region root := by
  have log := (Log.start recording.draft recording.copies seen walked).runs runs
  have touring := (Touring.start recording.draft recording.copies seen walked).runs runs
    (.start _ _ _ _)
  refine ⟨walk.copied.toList ++ [object], ?_, ?_, ?_⟩
  · rw [List.nodup_append]
    refine ⟨log.copied ▸ log.distinct.filter _, List.nodup_singleton object, ?_⟩
    rintro other member _ last rfl
    rw [List.mem_singleton.mp last, Array.mem_toList_iff] at member
    rw [log.marked object (log.uncopied member).1] at new
    cases new
  · intro other member
    rcases List.mem_append.mp member with old | last
    · obtain ⟨met, uncopied⟩ := log.uncopied (Array.mem_toList_iff.mp old)
      exact ⟨(touring.visits other met).reaches, uncopied⟩
    · rw [List.mem_singleton.mp last]
      refine ⟨(touring.visits_head (log.undoable.fresh new)).reaches, fun old => ?_⟩
      obtain ⟨place, known⟩ := mem_copies_iff.mp old
      rw [← log.copies_eq new, uncached] at known
      cases known
  · have extent : live.extent object = portrait.slots.size + 1 := by
      rw [Live.extent, found]
      rfl
    have sizes := log.sizes region
    rw [if_pos rfl] at sizes
    have capacity := laying.grown.capacity
    have room := laying.tiling.framed.capacity_le
    rw [Draft.Full, capacity] at full
    rw [capacity] at room
    rw [List.map_append, List.sum_append, List.map_singleton, List.sum_singleton, extent,
      ← Nat.add_assoc, ← sizes]
    unfold wordBytes UInt32.size at *
    omega

/-- Where everything behind the root may be archived and no open copy is in the way, a walk stops
only at an object that finds no room. -/
theorem exceeds_of_stop {stack : List ObjectId} {walk after : Walk} {failure : Failure}
    {old fresh : List Tile} (laying : Laying live region recording.draft root old stack walk fresh)
    (unbarred : region = .closed → Unopened walk.copies)
    (admissible : ∀ object, live.Reaches root object → screening.Admissible live object)
    (runs : Runs live screening region [root]
      (Walk.start recording.draft recording.copies seen walked) stack walk)
    (stop : Stop live screening region stack walk failure after) :
    recording.Exceeds live region root ∧
      failure = .regionOverflow region recording.draft.capacity := by
  cases stop with
  | barred _ barred =>
    obtain ⟨closed, opened⟩ := barred
    obtain ⟨place, found, here⟩ := Option.map_eq_some_iff.mp opened
    rw [unbarred closed _ place found] at here
    cases here
  | unfit found _ fresh unfit =>
    have log := (Log.start recording.draft recording.copies seen walked).runs runs
    have touring := (Touring.start recording.draft recording.copies seen walked).runs runs
      (.start _ _ _ _)
    obtain ⟨seen, again, fit⟩ :=
      admissible _ (touring.visits_head (log.undoable.fresh fresh)).reaches
    rw [found] at again
    cases again
    rw [unfit] at fit
    cases fit
  | full found _ fresh _ uncached failed =>
    obtain ⟨full, overflow, _⟩ := Draft.allocate_error failed
    rw [laying.grown.capacity] at overflow
    exact ⟨exceeds_of_full laying runs found fresh uncached full, overflow⟩

/-- A walk that succeeds has found room for whatever has no copy. -/
theorem not_exceeds_of_done {after : Walk} {old fresh : List Tile}
    (laying : Laying live region recording.draft root old [] after fresh)
    (linked : ∀ holder target, holder ∈ recording.copies → live.Refers holder target →
      target ∈ recording.copies)
    (known : ∀ object, seen.contains object = true → object ∈ recording.copies)
    (done : advance live screening region [root]
      (Walk.start recording.draft recording.copies seen walked) = .ok (.ok (), after)) :
    ¬ recording.Exceeds live region root := by
  rintro ⟨objects, distinct, among, exceeds⟩
  obtain ⟨log, met⟩ := log_of_advance done
  have copied : objects ⊆ after.copied.toList := by
    intro object member
    obtain ⟨path, uncopied⟩ := among object member
    rw [log.copied, List.mem_filter, Array.mem_toList_iff, met]
    refine ⟨Live.visits_of_reaches linked known path uncopied, ?_⟩
    rw [Option.isNone_iff_eq_none]
    exact Option.eq_none_iff_forall_ne_some.mpr fun place found =>
      uncopied (mem_copies_iff.mpr ⟨place, found⟩)
  have less := live.sum_extent_le distinct copied
  have within := laying.tiling.framed.within region
  rw [log.sizes, if_pos rfl, laying.grown.capacity] at within
  unfold wordBytes at *
  omega

end Walk

namespace Recording

variable {live : Live} {screening : Screening} {recording after : Recording} {tiles : List Tile}
  {round : Round} {root : ObjectId} {region : Region} {ofClass : ClassId} {offset : UInt32}

/-- Only the room in its region decides about a graph of objects that may all be archived. -/
theorem Intact.copyGraph_hinges
    (intact : recording.Intact live.classNames live.portrait? tiles)
    (current : recording.current = some round)
    (unbarred : region = .closed → Unopened recording.copies)
    (admissible : ∀ object, live.Reaches root object → screening.Admissible live object)
    {outcome : Outcome Place}
    (done : recording.copyGraph round live screening root region = .ok (outcome, after)) :
    HingesOn (recording.Exceeds live region root) region recording.draft.capacity outcome := by
  have laying := intact.laying current root live region
  cases outcome with
  | error failure =>
    obtain ⟨walk, failed, _⟩ := copyGraph_error done
    obtain ⟨last, final, runs, stop⟩ := Walk.runs_of_advance_error failed
    obtain ⟨_, laid⟩ := Walk.Laying.runs runs ⟨[], laying⟩
    refine Walk.exceeds_of_stop laid ?_ admissible runs stop
    rintro rfl
    exact runs.unopened (unbarred rfl)
  | ok place =>
    obtain ⟨walk, _, walked, _⟩ := copyGraph_ok done
    obtain ⟨_, laid⟩ := Walk.Laying.runs (Walk.runs_of_advance_ok walked) ⟨[], laying⟩
    exact Walk.not_exceeds_of_done laid (fun _ _ => intact.linked.mem_of_refers)
      (intact.seen round current) walked

/-- Only the room in its region decides about a static field behind which everything may
be archived. -/
theorem Attempt.hinges (intact : recording.Intact live.classNames live.portrait? tiles)
    (current : recording.current = some round)
    (unbarred : region = .closed → Unopened recording.copies)
    (declared : ∃ slot, live.static? ofClass offset = some slot)
    (clears : screening.Clears live (ofClass, offset)) {outcome : Outcome Entry}
    (attempt : Attempt live screening recording round ofClass offset region outcome after) :
    HingesOn (recording.Overfills live region (ofClass, offset)) region recording.draft.capacity
      outcome := by
  have behind {root : ObjectId} (value : live.static? ofClass offset = some (.ref root)) :
      recording.Overfills live region (ofClass, offset) ↔
        recording.Exceeds live region root := by
    simp [Overfills, value]
  cases attempt with
  | missing missing =>
    obtain ⟨slot, value⟩ := declared
    rw [missing] at value
    cases value
  | plain value nowhere =>
    rintro ⟨root, found, _⟩
    rw [value] at found
    exact nowhere root (Option.some.inj found)
  | refused value copying =>
    rw [behind value]
    exact intact.copyGraph_hinges current unbarred (clears _ value) copying
  | differs value copying compared =>
    obtain ⟨more, finished, known⟩ := intact.copyGraph current (fun _ listed => listed) copying
    rw [remember_self] at finished
    obtain ⟨totals, same⟩ := finished.exists_compare (known _ rfl)
    rw [same] at compared
    cases compared
  | copied value copying =>
    rw [behind value]
    exact intact.copyGraph_hinges current unbarred (clears _ value) copying

end Recording
end FrozenHeap
