import FrozenHeap.Proofs.Archive.RoundTrip
import FrozenHeap.Proofs.Dump.Pages
import FrozenHeap.Proofs.Live
import FrozenHeap.Proofs.Loaded.Objects
import FrozenHeap.Proofs.RecordTable.Gathering

namespace FrozenHeap

/-- A page has something to keep. -/
def Page.isWritten (page : Page) : Bool := !page.entries.isEmpty || !page.classes.isEmpty

namespace Dump

theorem nodup_names {live : Live} {narrowing : Narrowing} {copies : Copies} {ledger : Ledger}
    (truthful : ∀ page ∈ ledger.pages, page.Truthful live narrowing copies) :
    (ledger.pages.toList.map (·.name)).Nodup := by
  refine List.Nodup.map_on ?_ (List.Nodup.of_map _ ledger.distinct)
  intro page member other there same
  obtain ⟨loaded, here, name⟩ := (truthful page (Array.mem_toList_iff.mp member)).named
  obtain ⟨another, found, title⟩ := (truthful other (Array.mem_toList_iff.mp there)).named
  have left := Live.classNamed?_of_getElem? here
  have right := Live.classNamed?_of_getElem? found
  rw [name, same, ← title, right] at left
  have owner : page.ofClass = other.ofClass := by
    have index := congrArg ClassId.index (Option.some.inj left)
    exact congrArg ClassId.mk index.symm
  exact List.inj_on_of_nodup_map ledger.distinct member there owner

/-- Pages of different names are gathered into a roster, which has the records of
those not blank. -/
theorem exists_rosterOf {ledger : Ledger} (distinct : (ledger.pages.toList.map (·.name)).Nodup) :
    ∃ roster, rosterOf ledger = .ok roster ∧
      roster.records.toList = (ledger.pages.toList.filter Page.isWritten).map Page.toRecord := by
  have names : (Roster.empty.records.toList.map (·.className) ++
      ((ledger.pages.toList.filter Page.isWritten).map Page.toRecord).map (·.className)).Nodup := by
    rw [List.map_map]
    exact distinct.sublist (List.filter_sublist.map _)
  obtain ⟨roster, gathered, records⟩ := Roster.addAll_new .empty names
  rw [Roster.addAll, List.foldlM_map] at gathered
  exact ⟨roster, gathered, records⟩

/-- The records of a roster are those of the pages that are not blank. -/
theorem records_rosterOf {ledger : Ledger} {roster : Roster}
    (distinct : (ledger.pages.toList.map (·.name)).Nodup) (done : rosterOf ledger = .ok roster) :
    roster.records.toList = (ledger.pages.toList.filter Page.isWritten).map Page.toRecord := by
  obtain ⟨_, gathered, records⟩ := exists_rosterOf distinct
  cases done.symm.trans gathered
  exact records

theorem exists_finish {dump : Dump} (idle : dump.recording.current = none)
    (distinct : (dump.recording.ledger.pages.toList.map (·.name)).Nodup) :
    ∃ outcome, dump.finish = .ok outcome := by
  obtain ⟨roster, gathered, _⟩ := exists_rosterOf distinct
  have ended : ensure (dump.recording.current.isNone = true) = .ok () :=
    ensure_eq_ok_iff.mpr (by rw [idle]; rfl)
  simp only [finish, Recording.finish, ended, gathered, bind, Except.bind, pure, Except.pure]
  split <;> exact ⟨_, rfl⟩

end Dump

namespace Draft

def finished (draft : Draft) : List Image := [draft.finish.2.1, draft.finish.2.2]

variable {draft : Draft}

private theorem mem_finished (framed : draft.Framed) {image : Image} :
    image ∈ draft.finished ∧ (!image.words.isEmpty) = true ↔
      image = draft.image image.region ∧ image.region.first < image.words.size := by
  have closed : draft.closed.region = .closed := framed.region .closed
  have opened : draft.opened.region = .opened := framed.region .opened
  have reserved : 1 ≤ draft.closed.words.size := framed.first_le .closed
  have filled (image : Image) : (!image.words.isEmpty) = true ↔ 0 < image.words.size := by
    rw [Array.isEmpty, Bool.not_eq_true', decide_eq_false_iff_not, Nat.pos_iff_ne_zero]
  rw [filled, finished, finish]
  simp only [List.mem_cons, List.not_mem_nil, or_false]
  constructor
  · rintro ⟨rfl | rfl, some_⟩
    · by_cases only : draft.closed.words.size = 1
      · rw [if_pos only] at some_
        exact absurd some_ (by simp [Image.truncate])
      · rw [if_neg only, closed]
        exact ⟨rfl, Nat.lt_of_le_of_ne reserved (Ne.symm only)⟩
    · rw [opened]
      exact ⟨rfl, some_⟩
  · rintro ⟨same, some_⟩
    refine ⟨?_, by omega⟩
    cases region : image.region with
    | closed =>
      rw [region] at same some_
      rw [same] at some_
      have more : draft.closed.words.size ≠ 1 := Nat.ne_of_gt some_
      rw [if_neg more]
      exact .inl same
    | opened =>
      rw [region] at same
      exact .inr same

private theorem regions_finished (framed : draft.Framed) :
    draft.finished.map (·.region) = Region.all := by
  have closed : draft.closed.region = .closed := framed.region .closed
  have opened : draft.opened.region = .opened := framed.region .opened
  simp only [finished, finish, List.map_cons, List.map_nil, opened, Region.all]
  split
  · exact congrArg (fun region => [region, Region.opened]) closed
  · rw [closed]

/-- Each image of an archive is one of the draft, or was cut to nothing. -/
theorem exists_finished {image : Image} (member : image ∈ draft.finished) :
    ∃ region size, image = draft.image region ∨ image = (draft.image region).truncate size := by
  simp only [finished, finish, List.mem_cons, List.not_mem_nil, or_false] at member
  rcases member with rfl | rfl
  · split
    · exact ⟨.closed, 0, .inr rfl⟩
    · exact ⟨.closed, 0, .inl rfl⟩
  · exact ⟨.opened, 0, .inl rfl⟩

end Draft

/-- An archive has the names and the images of a draft. -/
structure Archive.Carries (archive : Archive) (draft : Draft) : Prop where
  narrowing : archive.narrowing = draft.narrowing
  names : archive.names = draft.names
  regions : archive.regions = draft.finished

theorem Dump.of_finish {dump : Dump} {dumped : Dumped} (done : dump.finish = .ok (.ok dumped)) :
    dumped.archive.Carries dump.recording.draft ∧
      ∃ roster, rosterOf dump.recording.ledger = .ok roster ∧
        roster.toBytes dump.bucketSize = .ok dumped.archive.table := by
  obtain ⟨recorded, ended, done⟩ := bind_eq_ok_iff.mp done
  obtain ⟨_, _, same⟩ := bind_eq_ok_iff.mp ended
  cases same
  obtain ⟨roster, gathered, done⟩ := bind_eq_ok_iff.mp done
  split at done
  · cases done
  · rename_i table written
    cases done
    exact ⟨⟨rfl, rfl, rfl⟩, roster, gathered, written⟩

/-- The table of an archive has the record of each page that is written. -/
theorem Dump.exists_table {live : Live} {dump : Dump} {dumped : Dumped}
    (recorded : dump.recording.Truthful live) (done : dump.finish = .ok (.ok dumped)) :
    ∃ table, RecordTable.ofBytes dumped.archive.table = .ok table ∧ table.Sound ∧
      (table.records.map (·.className)).Nodup ∧ ∀ record, record ∈ table.records ↔
        ∃ page ∈ dump.recording.ledger.pages, page.isWritten = true ∧ page.toRecord = record := by
  obtain ⟨_, roster, gathered, written⟩ := Dump.of_finish done
  obtain ⟨table, read, sound, same, distinct⟩ := roster.ofBytes_toBytes written
  refine ⟨table, read, sound, distinct, fun record => ?_⟩
  rw [same.mem_iff, Dump.records_rosterOf (Dump.nodup_names recorded.pages) gathered]
  simp only [List.mem_map, List.mem_filter, Array.mem_toList_iff, and_assoc]

namespace Archive.Carries

variable {archive : Archive} {draft : Draft} (carries : archive.Carries draft)
  (framed : draft.Framed)
include carries framed

theorem wellFormed : archive.WellFormed where
  ordered := by
    rw [carries.regions, Draft.regions_finished framed]
  covered image member := by
    rw [carries.regions] at member
    obtain ⟨region, size, rfl | rfl⟩ := Draft.exists_finished member
    · exact framed.covered region
    · exact Image.covered_truncate (framed.covered region) size
  few image member := by
    rw [carries.regions] at member
    obtain ⟨region, size, same⟩ := Draft.exists_finished member
    have bound := framed.size_le region
    have shorter : image.words.size ≤ (draft.image region).words.size := by
      rcases same with rfl | rfl
      · exact Nat.le_refl _
      · simp only [Image.truncate, Array.take_eq_extract, Array.size_extract]
        omega
    unfold maxWords UInt32.size at *
    omega

/-- The images that are mapped are those of the regions that have copies. -/
theorem mem_filled {image : Image} : image ∈ archive.filled ↔
    image = draft.image image.region ∧ image.region.first < image.words.size := by
  rw [filled, List.mem_filter, carries.regions]
  exact Draft.mem_finished framed

/-- Where it is loaded, an archive hosts the copies of the draft. -/
theorem hosting {loaded : Loaded} {mapper : Mapper} (granted : archive.Granted mapper)
    (holding : loaded.Holding archive mapper) : loaded.Hosting draft := by
  have resident (region : Region) (resident : Resident)
      (found : loaded.region? region = some resident) :
      draft.image region ∈ archive.filled ∧ resident.Carries (draft.image region) ∧
        resident.fixed = false ∧ ∃ grant, mapper region (draft.image region).base
          (draft.image region).byteLength = .ok grant ∧ resident.live = grant.address := by
    obtain ⟨image, member, rfl, mapped⟩ := holding.mapped region resident found
    obtain ⟨same, _⟩ := (carries.mem_filled framed).mp member
    obtain ⟨carried, fresh, grant, here, address⟩ := Resident.of_map mapped
    rw [← same]
    exact ⟨member, carried, fresh, grant, here, address⟩
  have narrowing := holding.narrowing.trans carries.narrowing
  have names := holding.names.trans carries.names
  refine ⟨⟨narrowing, names, ?_, ?_, ?_⟩, ?_, ?_, ?_⟩
  · intro region found here
    obtain ⟨member, carried, _, grant, mapped, address⟩ := resident region found here
    obtain ⟨other, granted, _, nonzero⟩ := granted.granted _ member
    rw [framed.region, mapped] at granted
    cases granted
    exact ⟨carried.region.trans (framed.region region), carried.base, by rw [carried.words],
      address ▸ nonzero⟩
  · intro region filled
    have member : draft.image region ∈ archive.filled :=
      (carries.mem_filled framed).mpr (by rw [framed.region]; exact ⟨rfl, filled⟩)
    have present := holding.present _ member
    rw [framed.region] at present
    exact present
  · intro low high first second
    obtain ⟨here, below, _, grant, mapped, address⟩ := resident .closed low first
    obtain ⟨there, above, _, other, placed, position⟩ := resident .opened high second
    have apart := granted.apart _ here _ there (by rw [framed.region, framed.region]; decide)
      grant other (by rw [framed.region]; exact mapped) (by rw [framed.region]; exact placed)
    simp only [Resident.byteLength, below.words, above.words, address, position]
    exact apart
  · exact fun region found here => (resident region found here).2.1.words
  · exact fun region found here => (resident region found here).2.1.marks
  · exact fun region found here => (resident region found here).2.2.1

end Archive.Carries
end FrozenHeap
