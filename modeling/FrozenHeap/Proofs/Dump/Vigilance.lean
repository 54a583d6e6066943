import FrozenHeap.Proofs.Dump.Courses
import FrozenHeap.Proofs.Dump.Finish
import FrozenHeap.Proofs.RecordTable.RoundTrip
import FrozenHeap.Proofs.Recording.Only
import FrozenHeap.Proofs.Screening.Exclusion

namespace FrozenHeap

namespace Dump

/-- A dump records only what its screening permits, and nothing before it is screened. -/
structure Vigilant (live : Live) (excluded : List String) (dump : Dump) : Prop where
  heap : dump.live = live
  excluded : dump.screening.excluded = excluded
  recorded : dump.recording.Only live fun name =>
    dump.screened = true ∧ dump.screening.Permits live name
  unresolved : dump.screened = false → ∀ nomination ∈ dump.nominations, nomination.resolved = none

namespace Vigilant

variable {live : Live} {excluded : List String} {dump after : Dump}

theorem start {settings : Settings} (started : Dump.start settings live = .ok dump) :
    dump.Vigilant live settings.excluded := by
  unfold Dump.start at started
  split at started
  · cases started
  · rename_i draft begun
    cases started
    exact ⟨rfl, rfl, .start begun settings.verify, fun _ _ listed =>
      absurd listed (Array.not_mem_empty _)⟩

/-- The requests of a dump matter only as far as they are resolved. -/
theorem nominate (vigilant : dump.Vigilant live excluded) (className fieldName : String)
    (region : Region) : (dump.nominate className fieldName region).2.Vigilant live excluded := by
  unfold Dump.nominate
  split
  · exact vigilant
  · refine ⟨vigilant.heap, vigilant.excluded, vigilant.recorded,
      fun unscreened nomination listed => ?_⟩
    rcases Array.mem_push.mp listed with old | rfl
    · exact vigilant.unresolved unscreened nomination old
    · rfl

theorem nominateWhole (vigilant : dump.Vigilant live excluded) (name : String) :
    (dump.nominateWhole name).2.Vigilant live excluded := by
  unfold Dump.nominateWhole
  split
  · exact vigilant
  · exact ⟨vigilant.heap, vigilant.excluded, vigilant.recorded, vigilant.unresolved⟩

theorem screen (vigilant : dump.Vigilant live excluded) (done : dump.screen = .ok after) :
    after.screened = true ∧ after.Vigilant live excluded := by
  rcases screen_ok done with ⟨screened, rfl⟩ |
    ⟨unscreened, classes, fields, nominations, checked, passed, rfl⟩
  · exact ⟨screened, vigilant⟩
  · refine ⟨rfl, vigilant.heap, ?_, ?_, fun contradiction => by cases contradiction⟩
    · have kept := (Screening.excluded_checkFields passed).trans
        (Screening.excluded_checkClasses checked)
      exact kept.trans vigilant.excluded
    · -- Nothing was recorded so far, so what was recorded is permitted by any screening.
      refine vigilant.recorded.mono fun name ⟨screened, _⟩ => ?_
      rw [unscreened] at screened
      cases screened

/-- Once it is screened, a dump goes on with what its screening permits. -/
theorem continues (vigilant : dump.Vigilant live excluded) (screened : dump.screened = true)
    (continues : dump.Continues after) : after.Vigilant live excluded := by
  have ensures : dump.screening.Ensures dump.live fun name =>
      dump.screened = true ∧ dump.screening.Permits dump.live name :=
    fun _ _ found admitted => ⟨screened, .of_portrait? found admitted⟩
  obtain ⟨rfl, excluded, recorded, _⟩ := vigilant
  have kept := continues.course.preserves
    (Recording.Only dump.live fun name => dump.screened = true ∧
      dump.screening.Permits dump.live name)
    (fun call recording next looks only done => by
      cases call with
      | start other root isPartial =>
        obtain rfl : other = dump.live := looks
        exact only.startRound done
      | archive other judged ofClass offset region =>
        obtain ⟨rfl, rfl⟩ := looks
        obtain ⟨⟨outcome, later⟩, archived, same⟩ := bind_eq_ok_iff.mp done
        cases same
        exact only.archiveStatic ensures archived
      | markPartial =>
        cases done
        exact only.markPartial
      | finish =>
        obtain ⟨⟨tally, later⟩, ended, same⟩ := bind_eq_ok_iff.mp done
        cases same
        exact only.endRound ended)
    (fun recording totals only => only.recount totals) recorded
  rw [continues.same]
  exact ⟨rfl, excluded, kept, fun unscreened => absurd screened (Bool.eq_false_iff.mp unscreened)⟩

/-- Another recording may take the place of the one so far. -/
theorem record (vigilant : dump.Vigilant live excluded) {recording : Recording}
    (recorded : recording.Only live fun name =>
      dump.screened = true ∧ dump.screening.Permits live name) :
    Vigilant live excluded { dump with recording := recording } :=
  ⟨vigilant.heap, vigilant.excluded, recorded, vigilant.unresolved⟩

theorem startRound (vigilant : dump.Vigilant live excluded) {root : ClassId} {isPartial : Bool}
    (done : dump.startRound root isPartial = .ok after) : after.Vigilant live excluded := by
  obtain ⟨recording, started, same⟩ := bind_eq_ok_iff.mp done
  cases same
  rw [vigilant.heap] at started
  exact vigilant.record (vigilant.recorded.startRound started)

theorem endRound (vigilant : dump.Vigilant live excluded) {tally : Tally}
    (done : dump.endRound = .ok (tally, after)) : after.Vigilant live excluded := by
  obtain ⟨⟨_, recording⟩, ended, same⟩ := bind_eq_ok_iff.mp done
  cases same
  exact vigilant.record (vigilant.recorded.endRound ended)

theorem archive (vigilant : dump.Vigilant live excluded) {index : Nat} {answer : Option Entry}
    (done : dump.archive index = .ok (answer, after)) : after.Vigilant live excluded := by
  by_cases screened : dump.screened = true
  · exact vigilant.continues screened (.archive done)
  · rcases archive_cases done with ⟨_, _, totals, _, rfl⟩ |
      ⟨nomination, outcome, recording, totals, found, preservable, _⟩
    · exact vigilant.record (vigilant.recorded.recount totals)
    · have unresolved := vigilant.unresolved (Bool.eq_false_iff.mpr screened) nomination
        (Array.mem_of_getElem? found)
      simp [Nomination.isPreservable, unresolved] at preservable

theorem archiveAll (vigilant : dump.Vigilant live excluded) (done : dump.archiveAll = .ok after) :
    after.Vigilant live excluded := by
  rw [archiveAll_eq] at done
  obtain ⟨middle, screens, archives⟩ := bind_eq_ok_iff.mp done
  obtain ⟨screened, kept⟩ := vigilant.screen screens
  exact kept.continues screened (.archiveScreened archives)

theorem only (vigilant : dump.Vigilant live excluded) :
    dump.recording.Only live fun name => ¬ dump.screening.Bars live excluded name :=
  vigilant.recorded.mono fun _ permitted => vigilant.excluded ▸ permitted.2.not_bars

end Vigilant

private theorem mem_records_rosterOf {ledger : Ledger} {roster : Roster}
    (done : rosterOf ledger = .ok roster) {record : Record} (member : record ∈ roster.records) :
    ∃ page ∈ ledger.pages, record = page.toRecord := by
  refine foldlM_preserves
    (fun roster : Roster => ∀ record ∈ roster.records, ∃ page ∈ ledger.pages,
      record = page.toRecord)
    (fun page listed before after step known record member => ?_)
    (fun record member => absurd member (Array.not_mem_empty record)) done record member
  obtain ⟨⟨answer, middle⟩, adding, same⟩ := bind_eq_ok_iff.mp step
  cases same
  unfold Roster.add at adding
  split at adding
  · cases adding
    exact known record member
  · split at adding
    · cases adding
      rcases Array.mem_push.mp member with old | rfl
      · exact known record old
      · exact ⟨page, Array.mem_toList_iff.mp (List.mem_of_mem_filter listed), rfl⟩
    · cases adding

end Dump

/-- An archive has copies of objects of fit classes only, and lists fit names only. -/
structure Archive.Only (fit : String → Prop) (archive : Archive) : Prop where
  names : ∀ name ∈ archive.names, fit name
  copies : ∀ image ∈ archive.regions, ∀ index copy,
    Draft.readCopy archive.names image index = some copy → fit copy.className
  classes : ∃ table, RecordTable.ofBytes archive.table = .ok table ∧
    ∀ record ∈ table.records, ∀ name ∈ record.classes, fit name

theorem Dump.only_of_finish {dump : Dump} {dumped : Dumped} {live : Live} {fit : String → Prop}
    (only : dump.recording.Only live fit) (done : dump.finish = .ok (.ok dumped)) :
    dumped.archive.Only fit := by
  obtain ⟨carries, roster, gathered, written⟩ := of_finish done
  obtain ⟨table, read, _, perm, _⟩ := Roster.ofBytes_toBytes written
  have names (name : String) (member : name ∈ dumped.archive.names) : fit name :=
    only.names name (carries.names ▸ member)
  refine ⟨names, fun image _ index copy found => names _ (Draft.className_mem_of_readCopy found),
    table, read, fun record member name listed => ?_⟩
  obtain ⟨page, present, rfl⟩ :=
    mem_records_rosterOf gathered (Array.mem_toList_iff.mp (perm.mem_iff.mp member))
  obtain ⟨met, there, rfl⟩ := List.mem_map.mp listed
  exact only.classes page present met (Array.mem_toList_iff.mp there)

end FrozenHeap
