import FrozenHeap.Proofs.Dump.Assignments
import FrozenHeap.Proofs.Dump.Vetting
import FrozenHeap.Proofs.Flags
import FrozenHeap.Proofs.RecordTable.Likeness

namespace FrozenHeap

/-- The narrow form of a copy's place is not that of null. -/
theorem Recording.Truthful.narrow_ne_zero {live : Live} {recording : Recording} {root : ObjectId}
    {place : Place} {narrow : Narrow} (recorded : recording.Truthful live)
    (known : recording.copies[root]? = some place)
    (narrowed : recording.draft.narrowing.narrow place.address = .ok narrow) :
    narrow.toUInt64 ≠ 0 := by
  obtain ⟨tiles, intact⟩ := recorded.intact
  obtain ⟨tile, member, rfl, rfl⟩ := (intact.linked.tiling.copied root place).mp known
  obtain ⟨_, again, live, _⟩ := intact.linked.tiling.exists_narrow member
  cases narrowed.symm.trans again
  exact fun zero => live (UInt32.toUInt64_inj.mp zero)

namespace Dump

/-- A nomination for this region passed the screening, and stands for this static field. -/
def Bids (dump : Dump) (ofClass : ClassId) (offset : UInt32) (region : Region) : Prop :=
  ∃ (index : Nat) (nomination : Nomination), dump.nominations[index]? = some nomination ∧
    nomination.isPreservable = true ∧ nomination.resolved = some (ofClass, offset) ∧
    nomination.region = region

/-- Two dumps of one heap have whole classes, verdicts and nominations in common, the latter
in any order. -/
structure Concurs (one two : Dump) : Prop where
  live : two.live = one.live
  wholes : two.wholes = one.wholes
  verdicts : two.screening.verdicts = one.screening.verdicts
  excluded : two.screening.excluded = one.screening.excluded
  bids : ∀ ofClass offset region, one.Bids ofClass offset region ↔ two.Bids ofClass offset region

variable {one two former latter dump screened : Dump} {ofClass : ClassId} {offset : UInt32}
  {region : Region} {object : ObjectId}

/-- A nomination bids for the field that it stands for, if everything behind it may be archived. -/
theorem Screened.bids_iff (screens : dump.Screened screened) : screened.Bids ofClass offset region ↔
    (∃ nomination ∈ dump.nominations.toList, nomination.field? dump.live = some (ofClass, offset) ∧
      nomination.region = region) ∧ screened.screening.Clears dump.live (ofClass, offset) := by
  constructor
  · rintro ⟨index, judged, found, passed, resolved, rfl⟩
    obtain ⟨nomination, member, judges⟩ := exists_left_of_forall₂ screens.judged judged
      (Array.mem_toList_iff.mpr (Array.mem_of_getElem? found))
    obtain ⟨field, stands, clears⟩ := judges.preservable.mp passed
    have same := judges.resolved.symm.trans resolved
    cases stands.symm.trans same
    exact ⟨⟨nomination, member, same, judges.region.symm⟩, clears⟩
  · rintro ⟨⟨nomination, member, stands, rfl⟩, clears⟩
    obtain ⟨judged, listed, judges⟩ := exists_right_of_forall₂ screens.judged nomination member
    obtain ⟨index, found⟩ := Array.mem_iff_getElem?.mp (Array.mem_toList_iff.mp listed)
    exact ⟨index, judged, found, judges.preservable.mpr ⟨_, stands, clears⟩,
      judges.resolved.trans stands, judges.region⟩

/-- The screening of nominations leaves the verdicts on classes as they are. -/
theorem Requested.exists_classes (requested : dump.Requested) (closed : dump.live.Closed)
    (done : dump.screen = .ok screened) : ∃ classes, dump.screening.checkClasses dump.live
      (dump.wholeNames.toList.filterMap dump.live.classNamed?) = .ok classes ∧
    screened.screening.verdicts = classes.verdicts ∧
    screened.screening.excluded = classes.excluded := by
  rcases screen_ok done with ⟨early, _⟩ | ⟨_, classes, fields, nominations, checked, passed, rfl⟩
  · exact absurd requested.unscreened (by simp [early])
  · refine ⟨classes, checked, ?_⟩
    have loaded (ofClass : ClassId)
        (listed : ofClass ∈ dump.wholeNames.toList.filterMap dump.live.classNamed?) :
        ofClass.index < dump.live.classes.size := by
      obtain ⟨name, _, named⟩ := List.mem_filterMap.mp listed
      exact (Live.lt_of_classNamed? named).1
    obtain ⟨_, again, sound⟩ := Screening.exists_checkClasses closed requested.coherent loaded
    cases checked.symm.trans again
    obtain ⟨_, _, also, continued, _⟩ := sound.checkFields closed requested.fresh
    cases passed.symm.trans also
    exact ⟨continued.verdicts, continued.excluded⟩

namespace Concurs

variable (concurs : one.Concurs two)
include concurs

theorem symm : two.Concurs one where
  live := concurs.live.symm
  wholes := concurs.wholes.symm
  verdicts := concurs.verdicts.symm
  excluded := concurs.excluded.symm
  bids ofClass offset region := (concurs.bids ofClass offset region).symm

theorem clears {field : ClassId × UInt32} :
    two.screening.Clears two.live field ↔ one.screening.Clears one.live field := by
  rw [concurs.live]
  simp only [Screening.Clears, Screening.admissible_congr concurs.verdicts concurs.excluded]

theorem isPreservableClass : two.isPreservableClass ofClass = one.isPreservableClass ofClass := by
  rw [Dump.isPreservableClass, Dump.isPreservableClass, Screening.verdict, Screening.verdict,
    concurs.verdicts]

/-- Dumps that concur assign each static field to the same region. -/
theorem assigns (assigns : one.Assigns ofClass offset region) :
    two.Assigns ofClass offset region := by
  cases assigns with
  | nominated found passed resolved here apart =>
    obtain ⟨_, _, found, passed, resolved, here⟩ :=
      (concurs.bids _ _ _).mp ⟨_, _, found, passed, resolved, here⟩
    exact .nominated found passed resolved here (concurs.wholes ▸ apart)
  | whole whole passed known declared here clears opened =>
    exact .whole (concurs.wholes ▸ whole) (concurs.isPreservableClass.trans passed)
      (concurs.live ▸ known) declared here (concurs.clears.mpr clears) opened

private theorem assigns_iff : one.Assigns ofClass offset region ↔
    two.Assigns ofClass offset region :=
  ⟨concurs.assigns, concurs.symm.assigns⟩

end Concurs

theorem Concludes.exists_slot {entry : Entry} (concludes : one.Concludes former)
    (tries : one.Tries ofClass offset (.ok entry)) : ∃ slot,
    one.live.static? ofClass offset = some slot ∧
      entry.Tells former.recording.draft.narrowing former.recording.copies slot := by
  obtain ⟨log, completes⟩ := concludes.completes
  obtain ⟨_, found, present⟩ := completes.exists_outline concludes.vetted tries
  obtain ⟨page, member, rfl, rfl⟩ := Ledger.outline?_eq_some_iff.mp found
  exact tries.offset_eq ▸
    (concludes.recorded.pages page member).entries entry (Array.mem_toList_iff.mp present)

theorem Concludes.classNamed?_name {page : Page} (concludes : one.Concludes former)
    (member : page ∈ former.recording.ledger.pages) :
    one.live.classNamed? page.name = some page.ofClass := by
  obtain ⟨loaded, present, title⟩ := (concludes.recorded.pages page member).named
  exact title ▸ Live.classNamed?_of_getElem? present

/-- The records are those of the pages that have something to keep. -/
theorem Concludes.mem_records {record : Record} {roster : Roster} (concludes : one.Concludes former)
    (gathered : rosterOf former.recording.ledger = .ok roster) : record ∈ roster.records.toList ↔
      ∃ page ∈ former.recording.ledger.pages, page.isWritten = true ∧ page.toRecord = record := by
  rw [Dump.records_rosterOf (Dump.nodup_names concludes.recorded.pages) gathered]
  simp only [List.mem_map, List.mem_filter, Array.mem_toList_iff, and_assoc]

/-- The classes on a page are those behind the static fields that were entered there. -/
theorem Concludes.hasClass_iff {page : Page} {met : ClassId} (concludes : one.Concludes former)
    (member : page ∈ former.recording.ledger.pages) : page.hasClass met = true ↔
      ∃ offset root, former.recording.ledger.Entered page.ofClass offset ∧
        one.live.static? page.ofClass offset = some (.ref root) ∧ one.live.LeadsTo root met := by
  obtain ⟨tiles, intact⟩ := concludes.recorded.intact
  rw [(concludes.listed.pages page member).listed]
  constructor
  · rintro ⟨entry, present, root, tells, leads⟩
    obtain ⟨slot, value, told⟩ := (concludes.recorded.pages page member).entries entry present
    rw [intact.linked.tiling.slot_eq_of_tells tells told] at value
    exact ⟨entry.offset, root, ⟨page, member, rfl, entry, present, rfl⟩, value, leads⟩
  · rintro ⟨_, root, ⟨other, there, owner, entry, present, rfl⟩, value, leads⟩
    obtain rfl : other = page := by
      have found := Ledger.page?_eq_some_iff.mpr ⟨there, owner⟩
      rw [Ledger.page?_eq_some_iff.mpr ⟨member, rfl⟩] at found
      exact (Option.some.inj found).symm
    obtain ⟨slot, same, told⟩ := (concludes.recorded.pages other member).entries entry present
    cases value.symm.trans same
    exact ⟨entry, present, root, told, leads⟩

/-- No two entries of a page are at one offset, even with the places of objects left out. -/
theorem Concludes.nodup_gists {page : Page} (concludes : one.Concludes former)
    (member : page ∈ former.recording.ledger.pages) :
    (page.entries.toList.map Entry.gist).Nodup := by
  obtain ⟨log, completes⟩ := concludes.completes
  have offsets := completes.logged.distinct _ _
    (Ledger.outline?_eq_some_iff.mpr ⟨page, member, rfl, rfl⟩)
  refine List.Nodup.of_map (·.offset) ?_
  rw [List.map_map]
  exact List.map_congr_left (fun entry _ => Entry.offset_gist entry) ▸ offsets

theorem Concludes.isPartial_iff {page : Page} (concludes : one.Concludes former)
    (member : page ∈ former.recording.ledger.pages) (written : page.isWritten = true) :
    page.isPartial = false ↔
      page.ofClass ∈ one.wholes ∧ ∃ shape, one.ArchivedWhole page.ofClass shape := by
  obtain ⟨log, completes⟩ := concludes.completes
  exact completes.isPartial_iff concludes.vetted
    (Ledger.outline?_eq_some_iff.mpr ⟨page, member, rfl, rfl⟩)
    ((concludes.listed.pages page member).isWritten_iff.mp written)

namespace Concludes

variable (first : one.Concludes former) (second : two.Concludes latter) (concurs : one.Concurs two)
include first second concurs

private theorem entered_congr : former.recording.ledger.Entered ofClass offset ↔
    latter.recording.ledger.Entered ofClass offset := by
  rw [first.entered_iff, second.entered_iff]
  exact exists_congr fun _ => concurs.assigns_iff

theorem mem_copies_congr : object ∈ former.recording.copies ↔ object ∈ latter.recording.copies := by
  rw [first.mem_copies_iff, second.mem_copies_iff, concurs.live]
  simp only [concurs.assigns_iff]

private theorem settled_congr : Settled .closed former.recording.copies object ↔
    Settled .closed latter.recording.copies object := by
  rw [first.settled_iff, second.settled_iff, concurs.live]
  simp only [concurs.assigns_iff]

theorem region_eq {place other : Place} (known : former.recording.copies[object]? = some place)
    (again : latter.recording.copies[object]? = some other) : place.region = other.region := by
  have settled (copies : Copies) (place : Place) (known : copies[object]? = some place) :
      Settled .closed copies object ↔ place.region = .closed := by
    simp [Settled, known]
  have same : Settled .closed former.recording.copies object ↔
      Settled .closed latter.recording.copies object := first.settled_congr second concurs
  rw [settled _ _ known, settled _ _ again] at same
  cases left : place.region <;> cases right : other.region <;> simp [left, right] at same ⊢

/-- Two trials of one field end in entries that differ in the place of an object only. -/
theorem gist_eq {entry other : Entry} (tries : one.Tries ofClass offset (.ok entry))
    (again : two.Tries ofClass offset (.ok other)) : entry.gist = other.gist := by
  obtain ⟨slot, value, tells⟩ := first.exists_slot tries
  obtain ⟨_, same, told⟩ := second.exists_slot again
  rw [concurs.live] at same
  cases value.symm.trans same
  cases slot with
  | bits word =>
    rw [show entry = _ from tells, show other = _ from told, tries.offset_eq, again.offset_eq]
  | null =>
    obtain ⟨region, assigned, rfl⟩ := tries.assigns_of_null value
    obtain ⟨another, assigns, rfl⟩ := again.assigns_of_null (concurs.live ▸ value)
    rw [(concurs.assigns assigned).unique second.vetted assigns]
  | ref root =>
    obtain ⟨place, narrow, known, narrowed, here⟩ := tells
    obtain ⟨position, word, present, written, there⟩ := told
    have region := first.region_eq second concurs known present
    rw [here, there, tries.offset_eq, again.offset_eq, region,
      Entry.gist_reference (first.recorded.narrow_ne_zero known narrowed),
      Entry.gist_reference (second.recorded.narrow_ne_zero present written)]

/-- A class that was archived as a whole was archived as a whole. -/
theorem archivedWhole {shape : ClassShape} (archived : one.ArchivedWhole ofClass shape) :
    two.ArchivedWhole ofClass shape where
  known := concurs.live ▸ archived.known
  passed := concurs.isPreservableClass.trans archived.passed
  declares := archived.declares
  archived field declared := by
    obtain ⟨log, completes⟩ := first.completes
    obtain ⟨more, later⟩ := second.completes
    have tried := archived.archived field declared
    have entered := (completes.entered_iff first.vetted).mpr tried
    have again := (first.entered_congr second concurs).mp entered
    exact (later.entered_iff second.vetted).mp again

/-- Each entry of a page has its like on the page of the same class. -/
theorem exists_gist {page other : Page} (member : page ∈ former.recording.ledger.pages)
    (there : other ∈ latter.recording.ledger.pages) (owner : page.ofClass = other.ofClass)
    {gist : Entry} (listed : gist ∈ page.entries.toList.map Entry.gist) :
    gist ∈ other.entries.toList.map Entry.gist := by
  obtain ⟨entry, present, rfl⟩ := List.mem_map.mp listed
  obtain ⟨log, completes⟩ := first.completes
  obtain ⟨more, later⟩ := second.completes
  have found : former.outline? page.ofClass = some page.outline :=
    Ledger.outline?_eq_some_iff.mpr ⟨page, member, rfl, rfl⟩
  have again : latter.outline? page.ofClass = some other.outline :=
    Ledger.outline?_eq_some_iff.mpr ⟨other, there, owner.symm, rfl⟩
  have tries := (completes.mem_entries_iff first.vetted found).mp present
  have entered := (completes.entered_iff first.vetted).mpr ⟨entry, tries⟩
  have counterpart := (first.entered_congr second concurs).mp entered
  obtain ⟨like, tried⟩ := (later.entered_iff second.vetted).mp counterpart
  have offset := tried.offset_eq
  have kept : like ∈ other.outline.entries := by
    rw [later.mem_entries_iff second.vetted again, offset]
    exact tried
  have same := first.gist_eq second concurs tries tried
  exact List.mem_map.mpr ⟨like, kept, same.symm⟩

/-- A class that has something to keep has it in the other dump, too. -/
theorem exists_page {page : Page} (member : page ∈ former.recording.ledger.pages)
    (written : page.isWritten = true) : ∃ other ∈ latter.recording.ledger.pages,
      other.ofClass = page.ofClass ∧ other.isWritten = true := by
  have filled := (first.listed.pages page member).isWritten_iff.mp written
  obtain ⟨entry, present⟩ := List.exists_mem_of_ne_nil _ filled
  obtain ⟨other, there, owner, like, listed, _⟩ := (first.entered_congr second concurs).mp
    ⟨page, member, rfl, entry, Array.mem_toList_iff.mp present, rfl⟩
  refine ⟨other, there, owner, (second.listed.pages other there).isWritten_iff.mpr ?_⟩
  exact List.ne_nil_of_mem (Array.mem_toList_iff.mpr listed)

theorem alike_toRecord {page other : Page} (member : page ∈ former.recording.ledger.pages)
    (there : other ∈ latter.recording.ledger.pages) (owner : page.ofClass = other.ofClass)
    (written : page.isWritten = true) (also : other.isWritten = true) :
    page.toRecord.Alike other.toRecord where
  className := by
    have named := second.classNamed?_name there
    rw [concurs.live, ← owner] at named
    exact Live.name_inj (first.classNamed?_name member) named
  isPartial := by
    have same : page.isPartial = false ↔ other.isPartial = false := by
      rw [first.isPartial_iff member written, second.isPartial_iff there also, concurs.wholes,
        owner]
      exact and_congr_right fun _ => exists_congr fun _ =>
        ⟨first.archivedWhole second concurs, second.archivedWhole first concurs.symm⟩
    change page.isPartial = other.isPartial
    simpa using not_congr same
  entries := (List.perm_ext_iff_of_nodup (first.nodup_gists member) (second.nodup_gists there)).mpr
    fun gist => ⟨first.exists_gist second concurs member there owner,
      second.exists_gist first concurs.symm there member owner.symm⟩
  classes := by
    have complete := first.listed.pages page member
    have completed := second.listed.pages other there
    refine (List.perm_ext_iff_of_nodup complete.nodup_names completed.nodup_names).mpr
      fun name => ?_
    rw [complete.mem_names, completed.mem_names, concurs.live]
    refine exists_congr fun met => and_congr_left fun _ => ?_
    rw [first.hasClass_iff member, second.hasClass_iff there, concurs.live, owner]
    simp only [first.entered_congr second concurs]

/-- Each class that has a record has one in the other roster, too. -/
theorem mem_names {roster again : Roster}
    (gathered : rosterOf former.recording.ledger = .ok roster)
    (collected : rosterOf latter.recording.ledger = .ok again) {name : String}
    (listed : name ∈ roster.records.toList.map (·.className)) :
    name ∈ again.records.toList.map (·.className) := by
  obtain ⟨_, present, rfl⟩ := List.mem_map.mp listed
  obtain ⟨page, member, written, rfl⟩ := (first.mem_records gathered).mp present
  obtain ⟨other, there, owner, also⟩ := first.exists_page second concurs member written
  have alike := first.alike_toRecord second concurs member there owner.symm written also
  have collects := (second.mem_records collected).mpr ⟨other, there, also, rfl⟩
  exact List.mem_map.mpr ⟨other.toRecord, collects, alike.className.symm⟩

/-- Rosters of dumps that concur have records of the same classes, which are alike. -/
theorem alike_of_rosters {roster again : Roster}
    (gathered : rosterOf former.recording.ledger = .ok roster)
    (collected : rosterOf latter.recording.ledger = .ok again) :
    (∀ record ∈ roster.records.toList, ∀ other ∈ again.records.toList,
      record.className = other.className → record.Alike other) ∧
    (roster.records.toList.map (·.className)).Perm (again.records.toList.map (·.className)) := by
  constructor
  · intro record listed other present same
    obtain ⟨page, member, written, rfl⟩ := (first.mem_records gathered).mp listed
    obtain ⟨like, there, also, rfl⟩ := (second.mem_records collected).mp present
    have owner : page.ofClass = like.ofClass := by
      have left := first.classNamed?_name member
      have right := second.classNamed?_name there
      rw [concurs.live, ← show page.name = like.name from same, left] at right
      exact Option.some.inj right
    exact first.alike_toRecord second concurs member there owner written also
  · exact (List.perm_ext_iff_of_nodup roster.distinct again.distinct).mpr fun name =>
      ⟨first.mem_names second concurs gathered collected,
        second.mem_names first concurs.symm collected gathered⟩

end Concludes
end Dump
end FrozenHeap
