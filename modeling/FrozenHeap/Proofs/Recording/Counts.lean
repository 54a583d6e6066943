import FrozenHeap.Proofs.Recording.Attempts
import FrozenHeap.Proofs.Recording.Visits
import Mathlib.Data.List.Perm.Subperm

namespace FrozenHeap

def Tally.sum (tally : Tally) : Nat := tally.walked + tally.archived + tally.recordedClasses

/-- All counts together that grow at the end of a recording. -/
def Totals.sum (totals : Totals) : Nat :=
  totals.recordings + totals.walked + totals.archived + totals.recordedClasses

private theorem Totals.exists_add {totals : Totals} {tally : Tally}
    (small : totals.sum + tally.sum + 1 < UInt64.size) :
    ∃ after, totals.add tally = (.ok (), after) := by
  unfold sum Tally.sum at small
  unfold add
  simp only
  rw [if_neg (by omega), if_neg (by omega), if_neg (by omega), if_neg (by omega)]
  exact ⟨_, rfl⟩

private theorem Totals.sum_add {totals after : Totals} {tally : Tally}
    (done : totals.add tally = (.ok (), after)) : after.sum = totals.sum + tally.sum + 1 := by
  unfold add at done
  simp only at done
  iterate 4
    split at done
    · cases done
  cases done
  simp only [sum, Tally.sum]
  omega

private theorem Page.size_foldl_addClass_le (met : List (ClassId × String)) (page : Page) :
    (met.foldl (·.addClass ·) page).classes.size ≤ page.classes.size + met.length := by
  induction met generalizing page with
  | nil => exact Nat.le_refl _
  | cons head rest ih =>
    have first : (page.addClass head).classes.size ≤ page.classes.size + 1 := by
      unfold addClass
      split
      · exact Nat.le_succ _
      · exact Nat.le_of_eq (Array.size_push head)
    have later := ih (page.addClass head)
    rw [List.foldl_cons, List.length_cons]
    omega

private theorem Ledger.classCount_addClasses_le (ledger : Ledger) (ofClass : ClassId)
    (met : List (ClassId × String)) :
    (ledger.addClasses ofClass met).classCount ofClass ≤
      ledger.classCount ofClass + met.length := by
  rw [classCount, classCount, addClasses, page?_modify, if_pos rfl]
  cases ledger.page? ofClass with
  | none => exact Nat.zero_le _
  | some page => exact page.size_foldl_addClass_le met

namespace Walk

/-- A walk counts what it meets, and meets each object of the heap once at most. -/
structure Counted (live : Live) (before : Nat) (walk : Walk) : Prop where
  walked : walk.walked = before + walk.met.size
  distinct : walk.met.toList.Nodup
  inside : ∀ object ∈ walk.met, object.index < live.objects.size

namespace Counted

variable {live : Live} {screening : Screening} {region : Region} {draft : Draft} {copies : Copies}
  {seen : Seen} {before : Nat} {walk : Walk}

theorem start (draft : Draft) (copies : Copies) (seen : Seen) (before : Nat) :
    Counted live before (Walk.start draft copies seen before) :=
  ⟨rfl, List.nodup_nil, fun _ member => absurd member (Array.not_mem_empty _)⟩

theorem meet (counted : Counted live before walk) (log : Log live region draft copies seen walk)
    {object : ObjectId} {portrait : Portrait} (found : live.portrait? object = some portrait)
    (fresh : walk.seen.contains object = false) : Counted live before (walk.meet object) where
  walked := by
    show walk.walked + 1 = before + (walk.met.push object).size
    rw [counted.walked, Array.size_push, Nat.add_assoc]
  distinct := log.nodup_push fresh
  inside other member := by
    rcases Array.mem_push.mp member with old | rfl
    · exact counted.inside other old
    · exact Live.isSome_portrait?.mp (Option.isSome_of_eq_some found)

theorem step {stack middle : List ObjectId} {later : Walk}
    (step : Step live screening region stack walk middle later)
    (log : Log live region draft copies seen walk) (counted : Counted live before walk) :
    Counted live before later := by
  cases step with
  | again => exact counted
  | cached found _ fresh =>
    have met := counted.meet log found fresh
    exact ⟨met.walked, met.distinct, met.inside⟩
  | laid found _ fresh =>
    have met := counted.meet log found fresh
    exact ⟨met.walked, met.distinct, met.inside⟩

theorem runs {stack last : List ObjectId} {final : Walk}
    (runs : Runs live screening region stack walk last final)
    (log : Log live region draft copies seen walk) (counted : Counted live before walk) :
    Counted live before final :=
  (runs.preserves
    (fun _ walk => Log live region draft copies seen walk ∧ Counted live before walk)
    (fun _ _ _ _ step both => ⟨both.1.step step, both.2.step step both.1⟩) ⟨log, counted⟩).2

theorem stop {stack : List ObjectId} {after : Walk} {failure : Failure}
    (stop : Stop live screening region stack walk failure after)
    (log : Log live region draft copies seen walk) (counted : Counted live before walk) :
    Counted live before after := by
  cases stop with
  | barred => exact counted
  | unfit found _ fresh => exact counted.meet log found fresh
  | full found _ fresh =>
    have met := counted.meet log found fresh
    exact ⟨met.walked, met.distinct, met.inside⟩

theorem size_le (counted : Counted live before walk) : walk.met.size ≤ live.objects.size := by
  have among : walk.met.toList ⊆ live.inventory := fun object member =>
    Live.mem_inventory.mpr (counted.inside object (Array.mem_toList_iff.mp member))
  have less := (counted.distinct.subperm among).length_le
  rw [Array.length_toList, Live.inventory, List.length_map, List.length_range] at less
  exact less

end Counted

theorem counted_of_advance {live : Live} {screening : Screening} {region : Region} {root : ObjectId}
    {draft : Draft} {copies : Copies} {seen : Seen} {before : Nat} {outcome : Outcome Unit}
    {after : Walk} (done : advance live screening region [root]
      (Walk.start draft copies seen before) = .ok (outcome, after)) :
    Counted live before after := by
  obtain ⟨last, final, runs, ends⟩ := exists_runs live screening region [root]
    (Walk.start draft copies seen before)
  have log := (Log.start draft copies seen before).runs runs
  have counted := (Counted.start draft copies seen before).runs runs
    (.start draft copies seen before)
  rw [done] at ends
  cases ends with
  | done => exact counted
  | stopped stop => exact counted.stop stop log

end Walk

namespace Recording

/-- All that a recording has counted, also in the round in progress. -/
def spent (recording : Recording) : Nat :=
  recording.totals.sum + (recording.current.map (·.tally.sum)).getD 0

variable {live : Live} {screening : Screening} {recording after : Recording} {round : Round}
  {ofClass : ClassId} {offset : UInt32} {region : Region}

/-- Copying a graph counts each object three times at most. -/
theorem spent_copyGraph (current : recording.current = some round) {root : ObjectId}
    {outcome : Outcome Place}
    (done : recording.copyGraph round live screening root region = .ok (outcome, after)) :
    after.spent ≤ recording.spent + 3 * live.objects.size := by
  cases outcome with
  | error failure =>
    obtain ⟨walk, failed, rfl⟩ := copyGraph_error done
    have counted := Walk.counted_of_advance failed
    have few := counted.size_le
    have walked := counted.walked
    simp only [spent, abandon, current, Tally.sum, Option.map_some, Option.getD_some]
    omega
  | ok place =>
    obtain ⟨walk, draft, advanced, _, rfl, _⟩ := copyGraph_ok done
    have counted := Walk.counted_of_advance advanced
    have few := counted.size_le
    have walked := counted.walked
    obtain ⟨log, _⟩ := Walk.log_of_advance advanced
    have copied : walk.copied.size ≤ walk.met.size := by
      rw [← Array.length_toList, ← Array.length_toList, log.copied]
      exact List.length_filter_le _ _
    have classes : walk.classes.toList.length ≤ walk.met.size := by
      rw [← Array.length_toList, log.classes]
      exact List.length_filterMap_le _ _
    have listed := recording.ledger.classCount_addClasses_le round.root walk.classes.toList
    simp only [spent, adopt, current, Tally.sum, Option.map_some, Option.getD_some]
    omega

private theorem spent_compare {root : ObjectId} {place : Place}
    (done : recording.compare live root place = .ok (.ok after)) :
    after.spent = recording.spent := by
  unfold compare at done
  split at done
  · split at done
    · cases done
    · cases done
    · cases done
      rfl
  · cases done
    rfl

theorem Attempt.spent_le (current : recording.current = some round) {outcome : Outcome Entry}
    (attempt : Attempt live screening recording round ofClass offset region outcome after) :
    after.spent ≤ recording.spent + 3 * live.objects.size := by
  cases attempt with
  | missing => exact Nat.le_add_right _ _
  | plain => exact Nat.le_add_right _ _
  | refused _ copying => exact spent_copyGraph current copying
  | differs _ copying => exact spent_copyGraph current copying
  | copied _ copying compares =>
    have copied := spent_copyGraph current copying
    rw [← spent_compare compares] at copied
    exact copied

variable {root : ClassId} {isPartial : Bool}

/-- A round that starts has a page for its root; nothing else changes. -/
theorem startRound_ok (done : recording.startRound live root isPartial = .ok after) :
    after.Headed root ∧ after.copies = recording.copies ∧ after.spent = recording.spent ∧
      ∀ ofClass offset,
        after.ledger.Entered ofClass offset ↔ recording.ledger.Entered ofClass offset := by
  obtain ⟨_, idle, done⟩ := bind_eq_ok_iff.mp done
  obtain ⟨shape, _, same⟩ := bind_eq_ok_iff.mp done
  cases same
  have idle : recording.current = none := Option.isNone_iff_eq_none.mp (ensure_eq_ok_iff.mp idle)
  refine ⟨⟨⟨_, rfl, rfl⟩, ?_⟩, rfl, ?_, fun ofClass offset => ?_⟩
  · simp only
    split
    · rw [Ledger.isSome_page?_markPartial]
      exact Ledger.isSome_page?_enter
    · exact Ledger.isSome_page?_enter
  · simp only [spent, idle]
    rfl
  · simp only
    split
    · rw [Ledger.entered_markPartial, Ledger.entered_enter]
    · exact Ledger.entered_enter

/-- A round for a class that exists can start when none is in progress. -/
theorem exists_startRound (idle : recording.current = none)
    (loaded : root.index < live.classes.size) (isPartial : Bool) :
    ∃ after, recording.startRound live root isPartial = .ok after := by
  simp only [startRound, ensure, idle, Live.shapeOf_eq loaded, Option.isNone_none, if_true, bind,
    Except.bind, pure, Except.pure]
  exact ⟨_, rfl⟩

theorem markPartial_ok (headed : recording.Headed root) :
    recording.markPartial.Headed root ∧ recording.markPartial.copies = recording.copies ∧
      recording.markPartial.spent = recording.spent ∧ ∀ ofClass offset,
        recording.markPartial.ledger.Entered ofClass offset ↔
          recording.ledger.Entered ofClass offset := by
  obtain ⟨⟨round, current, rfl⟩, paged⟩ := headed
  have same : recording.markPartial =
      { recording with ledger := recording.ledger.markPartial round.root } := by
    simp only [markPartial, current]
  rw [same]
  refine ⟨⟨⟨round, current, rfl⟩, ?_⟩, rfl, rfl, fun _ _ => Ledger.entered_markPartial⟩
  rw [Ledger.isSome_page?_markPartial]
  exact paged

/-- A round that ends changes nothing but the counts, and counts as one more. -/
theorem endRound_ok {tally : Tally} (done : recording.endRound = .ok (tally, after)) :
    after = { recording with current := none, totals := after.totals } ∧
      after.spent = recording.spent + 1 := by
  unfold endRound at done
  split at done
  · cases done
  · rename_i round current
    split at done
    · cases done
    · rename_i totals added
      cases done
      refine ⟨rfl, ?_⟩
      simp only [spent, current, Option.map_some, Option.getD_some]
      exact Totals.sum_add added

/-- A round can end as long as all counts together stay below 64 bits. -/
theorem exists_endRound (current : recording.current = some round)
    (small : recording.spent + 1 < UInt64.size) :
    ∃ after, recording.endRound = .ok (round.tally, after) := by
  rw [spent, current] at small
  obtain ⟨totals, added⟩ := Totals.exists_add small
  exact ⟨{ recording with current := none, totals := totals },
    by simp only [endRound, current, added]⟩

end Recording
end FrozenHeap
