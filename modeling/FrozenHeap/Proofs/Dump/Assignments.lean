import FrozenHeap.Proofs.Dump.Courses
import FrozenHeap.Proofs.Dump.Outcomes
import FrozenHeap.Proofs.Dump.Spreading

namespace FrozenHeap

/-- A static field that is null is entered as null, for the region that was asked for. -/
theorem Recording.archiveStatic_null {live : Live} {screening : Screening}
    {recording after : Recording}
    {ofClass : ClassId} {offset : UInt32} {region : Region} {entry : Entry}
    (value : live.static? ofClass offset = some .null)
    (done : recording.archiveStatic live screening ofClass offset region = .ok (.ok entry, after)) :
    entry = .reference offset region 0 := by
  unfold archiveStatic at done
  split at done
  · cases done
  · obtain ⟨_, _, done⟩ := bind_eq_ok_iff.mp done
    simp only [value] at done
    obtain ⟨_, _, same⟩ := bind_eq_ok_iff.mp done
    cases same
    rfl

namespace Dump

/-- A static field is to be archived, in this region: as a nomination that passed the screening, or
as one of a whole class that passed it, if everything behind it may be archived. -/
inductive Assigns (screened : Dump) (ofClass : ClassId) (offset : UInt32) (region : Region) :
    Prop where
  | nominated {index : Nat} {nomination : Nomination}
      (found : screened.nominations[index]? = some nomination)
      (passed : nomination.isPreservable = true)
      (resolved : nomination.resolved = some (ofClass, offset)) (here : nomination.region = region)
      (apart : ofClass ∉ screened.wholes)
  | whole {shape : ClassShape} {field : StaticField} (whole : ofClass ∈ screened.wholes)
      (passed : screened.isPreservableClass ofClass = true)
      (known : screened.live.shapeOf ofClass = .ok shape) (declared : field ∈ shape.statics)
      (here : field.offset = offset)
      (clears : screened.screening.Clears screened.live (ofClass, offset))
      (opened : region = .opened)

/-- Some walk finds no room for what it has to copy. -/
def Overflows (screened : Dump) : Prop :=
  ∃ ofClass offset region capacity,
    screened.Tries ofClass offset (.error (.regionOverflow region capacity))

variable {screened after : Dump} {log : List Trial} {ofClass : ClassId} {offset : UInt32}
  {region : Region} {outcome : Outcome Entry} {entry : Entry}

/-- Only the room in a region decides about a trial behind which everything may be archived. -/
theorem Tries.succeeds (vetted : screened.Vetted) (room : ¬ screened.Overflows)
    (clears : screened.screening.Clears screened.live (ofClass, offset))
    (tries : screened.Tries ofClass offset outcome) : ∃ entry, outcome = .ok entry := by
  cases outcome with
  | ok entry => exact ⟨entry, rfl⟩
  | error failure =>
    refine absurd ?_ room
    cases tries with
    | nominated turns found passed resolved tried =>
      obtain ⟨_, _, due⟩ := turns.due vetted.ready
      obtain ⟨_, _, again, hinges⟩ := due.hinges vetted found passed resolved
      have same := again
      simp only [Recording.archiveNomination, resolved] at same
      cases tried.symm.trans same
      obtain ⟨_, rfl⟩ := hinges
      exact ⟨_, _, _, _, .nominated turns found passed resolved tried⟩
    | whole turns here tried =>
      obtain ⟨underway, headed⟩ := turns.underway vetted.ready
      obtain ⟨tiles, intact⟩ := underway.recorded.intact
      obtain ⟨round, current, rfl⟩ := headed.rooted
      obtain ⟨shape, known, declared⟩ := turns.exists_shape
      obtain ⟨loaded, present, same⟩ := bind_eq_ok_iff.mp known
      cases same
      have hinges := (Recording.attempt_of_archiveStatic current tried).hinges intact current
        (fun closed => by cases closed)
        (here ▸ Live.exists_static (entryAt_eq_ok_iff.mp present) declared) clears
      obtain ⟨_, rfl⟩ := hinges
      exact ⟨_, _, _, _, .whole turns here tried⟩

theorem Assigns.unique {other : Region} (vetted : screened.Vetted)
    (left : screened.Assigns ofClass offset region)
    (right : screened.Assigns ofClass offset other) :
    region = other := by
  cases left with
  | nominated found passed resolved here apart =>
    cases right with
    | nominated again also same there _ =>
      have one := vetted.distinct _ _ ofClass offset ⟨_, found, passed, resolved⟩
        ⟨_, again, also, same⟩
      subst one
      cases found.symm.trans again
      exact here.symm.trans there
    | whole whole => exact absurd whole apart
  | whole whole _ _ _ _ _ opened =>
    cases right with
    | nominated _ _ _ _ apart => exact absurd whole apart
    | whole _ _ _ _ _ _ also => exact opened.trans also.symm

theorem Assigns.clears (vetted : screened.Vetted)
    (assigns : screened.Assigns ofClass offset region) :
    screened.screening.Clears screened.live (ofClass, offset) := by
  cases assigns with
  | nominated found passed resolved => exact vetted.clears _ _ _ ⟨_, found, passed, resolved⟩
  | whole _ _ _ _ _ clears => exact clears

private theorem Completes.exists_tries (completes : screened.Completes log after)
    (assigns : screened.Assigns ofClass offset region) :
    ∃ outcome, screened.Tries ofClass offset outcome := by
  have listed : ∃ trial ∈ log, trial.ofClass = ofClass ∧ trial.offset = offset := by
    cases assigns with
    | nominated found passed resolved here apart =>
      obtain ⟨group, member, listed⟩ := exists_group ⟨_, offset, found, resolved, here, apart⟩
      have among : group ∈ screened.groups :=
        List.mem_flatMap.mpr ⟨region, by cases region <;> decide, member⟩
      exact completes.covers _ (List.mem_flatMap.mpr ⟨group, among, listed⟩) ofClass offset
        ⟨_, found, passed, resolved⟩
    | whole whole passed known declared here =>
      exact here ▸ completes.exists_trial whole passed known declared
  obtain ⟨trial, member, rfl, rfl⟩ := listed
  exact ⟨_, completes.logged.tried trial member⟩

/-- What is tried with success has an entry in the end, and nothing else has. -/
theorem Completes.entered_iff (completes : screened.Completes log after)
    (vetted : screened.Vetted) :
    after.recording.ledger.Entered ofClass offset ↔
      ∃ entry, screened.Tries ofClass offset (.ok entry) := by
  constructor
  · rintro ⟨page, member, rfl, entry, listed, rfl⟩
    have outline : after.outline? page.ofClass = some page.outline :=
      Ledger.outline?_eq_some_iff.mpr ⟨page, member, rfl, rfl⟩
    have entered : entry ∈ page.outline.entries := Array.mem_toList_iff.mpr listed
    have tries := (completes.mem_entries_iff vetted outline).mp entered
    exact ⟨entry, tries⟩
  · rintro ⟨entry, tries⟩
    obtain ⟨_, found, present⟩ := completes.exists_outline vetted tries
    obtain ⟨page, member, owner, rfl⟩ := Ledger.outline?_eq_some_iff.mp found
    have listed : entry ∈ page.entries := Array.mem_toList_iff.mp present
    exact ⟨page, member, owner, entry, listed, tries.offset_eq⟩

/-- A dump that was screened with care has archived all that it found room for. -/
structure Concludes (screened after : Dump) : Prop where
  vetted : screened.Vetted
  done : screened.archiveScreened = .ok after
  completes : ∃ log, screened.Completes log after
  listed : after.recording.Listed screened.live
  recorded : after.recording.Truthful screened.live
  admits : after.recording.Admits screened.live screened.screening
  blank : screened.recording.copies = ∅
  room : ¬ screened.Overflows

theorem admits_archiveScreened (listed : screened.recording.Listed screened.live)
    (blank : screened.recording.copies = ∅) (done : screened.archiveScreened = .ok after) :
    after.recording.Admits screened.live screened.screening := by
  have both := (Continues.archiveScreened done).course.preserves
    (fun recording => recording.Listed screened.live ∧
      recording.Admits screened.live screened.screening)
    (fun call recording next looks both done => by
      obtain ⟨tiles, intact⟩ := both.1.intact
      exact ⟨both.1.perform looks done, both.2.perform intact looks done⟩)
    (fun recording totals both => by
      obtain ⟨tiles, intact⟩ := both.1.intact
      exact ⟨⟨⟨tiles, intact.congr rfl rfl intact.seen⟩, both.1.pages, both.1.round⟩, both.2⟩)
    ⟨listed, fun object member => by simp [blank] at member⟩
  exact both.2

namespace Concludes

variable (concludes : screened.Concludes after)
include concludes

/-- A static field is entered exactly if it was assigned to a region. -/
theorem entered_iff : after.recording.ledger.Entered ofClass offset ↔
    ∃ region, screened.Assigns ofClass offset region := by
  obtain ⟨log, completes⟩ := concludes.completes
  constructor
  · intro entered
    have clears : screened.screening.Clears screened.live (ofClass, offset) :=
      fun root value object path => concludes.admits object
        (concludes.recorded.mem_of_anchored ⟨ofClass, offset, root, entered, value, path⟩)
    obtain ⟨entry, tries⟩ := (completes.entered_iff concludes.vetted).mp entered
    cases tries with
    | nominated turns found passed resolved =>
      exact ⟨_, .nominated found passed resolved rfl (turns.not_mem_wholes found resolved)⟩
    | whole turns here =>
      obtain ⟨shape, known, declared⟩ := turns.exists_shape
      exact ⟨_, .whole turns.mem_wholes turns.passed known declared here clears rfl⟩
  · rintro ⟨region, assigns⟩
    obtain ⟨outcome, tries⟩ := completes.exists_tries assigns
    obtain ⟨entry, rfl⟩ :=
      tries.succeeds concludes.vetted concludes.room (assigns.clears concludes.vetted)
    exact (completes.entered_iff concludes.vetted).mpr ⟨entry, tries⟩

private theorem closes_iff : screened.Closes after ofClass offset ↔
    screened.Assigns ofClass offset .closed := by
  constructor
  · rintro ⟨_, index, ⟨nomination, _, found, _, here, apart⟩, _, again, passed, resolved⟩
    cases found.symm.trans again
    exact .nominated found passed resolved here apart
  · intro assigns
    refine ⟨concludes.entered_iff.mpr ⟨_, assigns⟩, ?_⟩
    cases assigns with
    | nominated found passed resolved here apart =>
      exact ⟨_, ⟨_, offset, found, resolved, here, apart⟩, _, found, passed, resolved⟩
    | whole _ _ _ _ _ _ opened => cases opened

/-- What is behind fields that were assigned is copied, and nothing else. -/
theorem mem_copies_iff {object : ObjectId} : object ∈ after.recording.copies ↔
    screened.live.Anchored (fun ofClass offset => ∃ region, screened.Assigns ofClass offset region)
      object := by
  rw [concludes.vetted.mem_copies_iff_anchored concludes.done concludes.blank]
  exact ⟨fun anchored => anchored.mono fun _ _ => concludes.entered_iff.mp,
    fun anchored => anchored.mono fun _ _ => concludes.entered_iff.mpr⟩

/-- What is behind fields that were assigned to the closed region is copied there, and
nothing else. -/
theorem settled_iff {object : ObjectId} : Settled .closed after.recording.copies object ↔
    screened.live.Anchored (fun ofClass offset => screened.Assigns ofClass offset .closed)
      object := by
  rw [concludes.vetted.settled_iff_anchored concludes.done concludes.blank]
  exact ⟨fun anchored => anchored.mono fun _ _ => concludes.closes_iff.mp,
    fun anchored => anchored.mono fun _ _ => concludes.closes_iff.mpr⟩

end Concludes

/-- A null reference is entered for the region that its field was assigned to. -/
theorem Tries.assigns_of_null
    (value : screened.live.static? ofClass offset = some .null)
    (tries : screened.Tries ofClass offset (.ok entry)) :
    ∃ region, screened.Assigns ofClass offset region ∧ entry = .reference offset region 0 := by
  cases tries with
  | nominated turns found passed resolved tried =>
    exact ⟨_, .nominated found passed resolved rfl (turns.not_mem_wholes found resolved),
      Recording.archiveStatic_null value tried⟩
  | whole turns here tried =>
    obtain ⟨shape, known, declared⟩ := turns.exists_shape
    refine ⟨_, .whole turns.mem_wholes turns.passed known declared here (fun root ref => ?_) rfl,
      Recording.archiveStatic_null value tried⟩
    cases value.symm.trans ref

end Dump
end FrozenHeap
