import FrozenHeap.Proofs.Draft.Allocation
import FrozenHeap.Proofs.Recording.Laying

namespace FrozenHeap

private theorem getElem?_foldl_erase (objects : List ObjectId) (copies : Copies)
    (object : ObjectId) :
    (objects.foldl (·.erase ·) copies)[object]? =
      if object ∈ objects then none else copies[object]? := by
  induction objects generalizing copies with
  | nil => simp
  | cons head rest ih =>
    rw [List.foldl_cons, ih, Std.ExtTreeMap.getElem?_erase]
    by_cases first : head = object
    · simp [first]
    · simp [first, Ne.symm first]

private theorem contains_foldl_erase (objects : List ObjectId) (seen : Seen) (object : ObjectId) :
    (objects.foldl (·.erase ·) seen).contains object =
      (seen.contains object && !objects.contains object) := by
  induction objects generalizing seen with
  | nil => simp
  | cons head rest ih =>
    rw [List.foldl_cons, ih, Std.ExtTreeSet.contains_erase]
    by_cases first : head = object
    · simp [first]
    · have apart : (compare head object != .eq) = true :=
        bne_iff_ne.mpr fun same => first (Std.LawfulEqOrd.eq_of_compare same)
      simp [apart, Ne.symm first]

namespace Walk

/-- A walk knows what it added to the copies and the objects seen before. -/
structure Undoable (copies : Copies) (seen : Seen) (walk : Walk) : Prop where
  copied : ∀ object ∈ walk.copied, copies[object]? = none
  kept : ∀ object, object ∉ walk.copied → walk.copies[object]? = copies[object]?
  met : ∀ object ∈ walk.met, seen.contains object = false
  old : ∀ object, object ∉ walk.met → walk.seen.contains object = seen.contains object

namespace Undoable

variable {live : Live} {screening : Screening} {region : Region} {copies : Copies} {seen : Seen}
  {walk : Walk}

theorem start (draft : Draft) (copies : Copies) (seen : Seen) (walked : Nat) :
    Undoable copies seen (Walk.start draft copies seen walked) where
  copied _ member := by simp [Walk.start] at member
  kept _ _ := rfl
  met _ member := by simp [Walk.start] at member
  old _ _ := rfl

theorem meet (undoable : Undoable copies seen walk) {object : ObjectId}
    (fresh : walk.seen.contains object = false) : Undoable copies seen (walk.meet object) where
  copied := undoable.copied
  kept := undoable.kept
  met other member := by
    rcases Array.mem_push.mp member with before | rfl
    · exact undoable.met other before
    · by_cases again : other ∈ walk.met
      · exact undoable.met other again
      · rw [← undoable.old other again]
        exact fresh
  old other absent := by
    obtain ⟨before, different⟩ := not_or.mp (mt Array.mem_push.mpr absent)
    rw [← undoable.old other before]
    simp [Walk.meet, Std.ExtTreeSet.contains_insert, Ne.symm different]

theorem list (undoable : Undoable copies seen walk) (listed : ClassId × String) :
    Undoable copies seen (walk.list listed) :=
  ⟨undoable.copied, undoable.kept, undoable.met, undoable.old⟩

theorem copy (undoable : Undoable copies seen walk) {object : ObjectId}
    (uncached : walk.copies[object]? = none) (draft : Draft) (place : Place) (slots : Array Slot) :
    Undoable copies seen (walk.copy draft object place slots) where
  copied other member := by
    rcases Array.mem_push.mp member with before | rfl
    · exact undoable.copied other before
    · by_cases again : other ∈ walk.copied
      · exact undoable.copied other again
      · rw [← undoable.kept other again]
        exact uncached
  kept other absent := by
    obtain ⟨before, different⟩ := not_or.mp (mt Array.mem_push.mpr absent)
    rw [← undoable.kept other before]
    simp [Walk.copy, Std.ExtTreeMap.getElem?_insert, Ne.symm different]
  met := undoable.met
  old := undoable.old

theorem step {stack middle : List ObjectId} {later : Walk}
    (step : Step live screening region stack walk middle later)
    (undoable : Undoable copies seen walk) : Undoable copies seen later := by
  cases step with
  | again => exact undoable
  | cached _ _ fresh => exact (undoable.meet fresh).list _
  | laid _ _ fresh _ uncached => exact ((undoable.meet fresh).list _).copy uncached _ _ _

theorem runs {stack last : List ObjectId} {final : Walk}
    (runs : Runs live screening region stack walk last final)
    (undoable : Undoable copies seen walk) : Undoable copies seen final :=
  runs.preserves (fun _ walk => Undoable copies seen walk)
    (fun _ _ _ _ step undoable => undoable.step step) undoable

theorem stop {stack : List ObjectId} {after : Walk} {failure : Failure}
    (stop : Stop live screening region stack walk failure after)
    (undoable : Undoable copies seen walk) : Undoable copies seen after := by
  cases stop with
  | barred => exact undoable
  | unfit _ _ fresh => exact undoable.meet fresh
  | full _ _ fresh =>
    have met := undoable.meet fresh
    exact ⟨met.copied, met.kept, met.met, met.old⟩

theorem erase_copied (undoable : Undoable copies seen walk) :
    walk.copied.foldl (·.erase ·) walk.copies = copies := by
  apply Std.ExtTreeMap.ext_getElem?
  intro object
  rw [← Array.foldl_toList, getElem?_foldl_erase]
  split
  · rename_i member
    exact (undoable.copied object (Array.mem_toList_iff.mp member)).symm
  · rename_i absent
    exact undoable.kept object fun member => absent (Array.mem_toList_iff.mpr member)

theorem erase_met (undoable : Undoable copies seen walk) :
    walk.met.foldl (·.erase ·) walk.seen = seen := by
  apply Std.ExtTreeSet.ext_contains
  intro object
  rw [← Array.foldl_toList, contains_foldl_erase]
  by_cases member : object ∈ walk.met
  · simp [member, undoable.met object member]
  · simp [member, undoable.old object member]

end Undoable

theorem Stop.draft_eq {live : Live} {screening : Screening} {region : Region}
    {stack : List ObjectId} {walk after : Walk} {failure : Failure}
    (stop : Stop live screening region stack walk failure after) : after.draft = walk.draft := by
  cases stop with
  | barred => rfl
  | unfit => rfl
  | full _ _ _ _ _ full => exact (Draft.allocate_error full).2.2

/-- A walk on its way has added to a draft and to a count of objects walked. -/
structure Grown (before : Draft) (walked : Nat) (walk : Walk) : Prop where
  grown : before.Extends walk.draft
  covered : ∀ region, (walk.draft.image region).Covered
  walked : walked ≤ walk.walked

namespace Grown

variable {live : Live} {screening : Screening} {region : Region} {before : Draft} {walked : Nat}
  {walk : Walk}

theorem step {stack middle : List ObjectId} {later : Walk}
    (step : Step live screening region stack walk middle later)
    (grown : Grown before walked walk) : Grown before walked later := by
  cases step with
  | again => exact grown
  | cached => exact ⟨grown.grown, grown.covered, Nat.le_succ_of_le grown.walked⟩
  | laid _ _ _ _ _ laid =>
    obtain ⟨_, _, _, rfl⟩ := Draft.allocate_ok laid
    exact ⟨grown.grown.trans (Draft.extends_laidOut grown.covered ..),
      Draft.covered_laidOut grown.covered, Nat.le_succ_of_le grown.walked⟩

theorem runs {stack last : List ObjectId} {final : Walk}
    (runs : Runs live screening region stack walk last final)
    (grown : Grown before walked walk) : Grown before walked final :=
  runs.preserves (fun _ walk => Grown before walked walk)
    (fun _ _ _ _ step grown => grown.step step) grown

theorem stop {stack : List ObjectId} {after : Walk} {failure : Failure}
    (stop : Stop live screening region stack walk failure after)
    (grown : Grown before walked walk) : Grown before walked after where
  grown := stop.draft_eq ▸ grown.grown
  covered := stop.draft_eq ▸ grown.covered
  walked := by
    cases stop with
    | barred => exact grown.walked
    | unfit => exact Nat.le_succ_of_le grown.walked
    | full => exact Nat.le_succ_of_le grown.walked

end Grown
end Walk

/-- Giving up a walk leaves everything as it was before, but for class names and the count of
objects walked. -/
theorem Recording.abandon_eq {recording : Recording} {round : Round} {walk : Walk}
    (undoable : walk.Undoable recording.copies round.seen)
    (grown : recording.draft.Extends walk.draft)
    (covered : ∀ region, (recording.draft.image region).Covered)
    (within : ∀ region, (walk.draft.image region).Covered) :
    recording.abandon round walk =
      { recording with
        draft := { recording.draft with names := walk.draft.names }
        current := some { round with tally := { round.tally with walked := walk.walked } } } := by
  rw [abandon, grown.rollback covered within, undoable.erase_copied, undoable.erase_met]

/-- A walk that failed and was given up has changed nothing but class names and the count of objects
walked, to which it may have added. -/
theorem Recording.abandoned {recording : Recording} {round : Round} {walk : Walk} {live : Live}
    {screening : Screening} {region : Region} {root : ObjectId} {failure : Failure}
    (covered : ∀ region, (recording.draft.image region).Covered)
    (done : Walk.advance live screening region [root]
      (Walk.start recording.draft recording.copies round.seen round.tally.walked) =
        .ok (.error failure, walk)) :
    recording.abandon round walk =
      { recording with
        draft := { recording.draft with names := walk.draft.names }
        current := some { round with tally := { round.tally with walked := walk.walked } } } ∧
    recording.draft.names.toList <+: walk.draft.names.toList ∧
    round.tally.walked ≤ walk.walked := by
  obtain ⟨last, final, runs, stop⟩ := Walk.runs_of_advance_error done
  have undoable := (Walk.Undoable.start recording.draft recording.copies round.seen
    round.tally.walked).runs runs |>.stop stop
  have start : Walk.Grown recording.draft round.tally.walked
      (Walk.start recording.draft recording.copies round.seen round.tally.walked) :=
    ⟨.refl _, covered, Nat.le_refl _⟩
  have grown := (start.runs runs).stop stop
  exact ⟨abandon_eq undoable grown.grown covered grown.covered, grown.grown.names, grown.walked⟩

end FrozenHeap
