import FrozenHeap.Proofs.Session.Commands
import FrozenHeap.Proofs.Session.Requests

/-! Flags. The record of a class says whether it is only a part, and a loading process that finds
none of it missing skips what it would compute otherwise. So the flag has to be true. -/

namespace FrozenHeap

/-- The record of a class says what was archived of its static fields, and whether that is all. -/
structure Record.Accounts (live : Live) (screened : Dump) (narrowing : Narrowing) (copies : Copies)
    (ofClass : ClassId) (record : Record) : Prop where
  named : live.classNamed? record.className = some ofClass
  /-- No static field has two entries. -/
  distinct : (record.entries.map (·.offset)).Nodup
  archived : ∀ entry, entry ∈ record.entries ↔ screened.Tries ofClass entry.offset (.ok entry)
  /-- An entry has the value of its static field. -/
  tells : ∀ entry ∈ record.entries, ∃ slot,
    live.static? ofClass entry.offset = some slot ∧ entry.Tells narrowing copies slot
  /-- A record that is not partial has an entry for each static field, in order. -/
  whole : record.isPartial = false → ∃ shape, live.shapeOf ofClass = .ok shape ∧
    record.entries.map (·.offset) = shape.statics.toList.map (·.offset)

/-- A page without entries is not written, as its classes are those behind its entries. -/
theorem Page.Complete.isWritten_iff {live : Live} {narrowing : Narrowing} {copies : Copies}
    {page : Page} (complete : page.Complete live narrowing copies) :
    page.isWritten = true ↔ page.outline.entries ≠ [] := by
  have unlisted (none_ : page.entries = #[]) : page.classes = #[] := by
    refine Array.eq_empty_iff_forall_not_mem.mpr fun met listed => ?_
    have known := Page.hasClass_iff.mpr (List.mem_map_of_mem (Array.mem_toList_iff.mpr listed))
    obtain ⟨entry, present, _⟩ := (complete.listed met.1).mp known
    rw [none_] at present
    exact absurd present (Array.not_mem_empty entry)
  by_cases none_ : page.entries = #[]
  · simp [isWritten, outline, none_, unlisted none_]
  · simp [isWritten, outline, none_]

/-- The record of a page says what was archived of its class. -/
theorem Dump.Completes.accounts {screened dump : Dump} {log : List Trial} {page : Page}
    (completes : screened.Completes log dump) (vetted : screened.Vetted)
    (recorded : dump.recording.Truthful screened.live) (member : page ∈ dump.recording.ledger.pages)
    (written : page.outline.entries ≠ []) :
    page.toRecord.Accounts screened.live screened dump.recording.draft.narrowing
      dump.recording.copies page.ofClass := by
  have truthful := recorded.pages page member
  have found : dump.outline? page.ofClass = some page.outline :=
    Ledger.outline?_eq_some_iff.mpr ⟨page, member, rfl, rfl⟩
  obtain ⟨loaded, present, title⟩ := truthful.named
  obtain ⟨inside, rfl⟩ := Array.getElem?_eq_some_iff.mp present
  have known := Live.shapeOf_eq inside
  exact {
    named := (congrArg _ title.symm).trans (Live.classNamed?_of_getElem? present)
    distinct := completes.logged.distinct _ _ found
    archived := fun entry => completes.mem_entries_iff vetted found
    tells := fun entry listed => truthful.entries entry (Array.mem_toList_iff.mp listed)
    whole := fun complete =>
      ⟨_, known, completes.map_offset_entries vetted found written complete known⟩ }

namespace Session

variable {settings : Settings} {live : Live} {session last : Session}
  {dumped : Dumped} {requests : List Registration}

/-- What a run has found out and recorded before it ends. -/
structure Arrives (live : Live) (requests : List Registration) (screened dump : Dump) : Prop where
  heap : screened.live = live
  vetted : screened.Vetted
  wholes : ∀ name ofClass, live.classNamed? name = some ofClass →
    (ofClass ∈ screened.wholes ↔ Registration.whole name ∈ requests)
  completes : ∃ log, screened.Completes log dump
  recorded : dump.recording.Truthful live
  listed : dump.recording.Listed live

/-- A run that leaves an archive screens what was asked for and archives all of it. -/
theorem exists_arrives (closed : live.Closed) (bounded : settings.Bounded)
    (started : start settings live = .ok session)
    (ran : session.run requests = .ok (last, .ok (some dumped))) :
    ∃ ready asked screened dump, requests.foldlM register session = .ok ready ∧
      ready.dump = some asked ∧ asked.screen = .ok screened ∧ last.dump = some dump ∧
      dump.finish = .ok (.ok dumped) ∧ Arrives live requests screened dump := by
  obtain ⟨dump, here, done⟩ := exists_dump_of_finish (finish_of_run ran)
  obtain ⟨ready, asked, screened, taken, origin, passes⟩ :=
    exists_passes closed bounded started ran here
  exact ⟨ready, asked, screened, dump, taken, origin, passes.screening, here, done, {
    heap := passes.heap
    vetted := passes.vetted closed
    wholes := fun name ofClass named =>
      (passes.screens.mem_wholes_iff (passes.took.heap ▸ named)).trans passes.took.mem_wholeNames
    completes := passes.exists_log closed
    recorded := passes.recorded
    listed := passes.listed bounded }⟩

/-- The flags of an archive are true. Whatever is asked of a session on a heap without dangling
references, the archive that it leaves has one record for each class at most. A class has one that
is not partial exactly if it was to be archived whole, passed the screening, declares static fields,
and had all of them archived. Whatever was archived has a record. A record has an entry for each
static field whose archiving succeeded, with its value, and no others; where it is not partial,
these are all static fields of the class in the order in which they are declared. -/
theorem accounts_of_run (closed : live.Closed) (bounded : settings.Bounded)
    (started : start settings live = .ok session)
    (ran : session.run requests = .ok (last, .ok (some dumped))) :
    ∃ ready asked screened dump table, requests.foldlM register session = .ok ready ∧
      ready.dump = some asked ∧ asked.screen = .ok screened ∧ last.dump = some dump ∧
      dumped.archive.Carries dump.recording.draft ∧ dump.recording.Faithful live ∧
      RecordTable.ofBytes dumped.archive.table = .ok table ∧
      (table.records.map (·.className)).Nodup ∧
      (∀ name, (∃ record ∈ table.records, record.className = name ∧ record.isPartial = false) ↔
        Registration.whole name ∈ requests ∧ ∃ ofClass shape,
          live.classNamed? name = some ofClass ∧ screened.ArchivedWhole ofClass shape) ∧
      (∀ ofClass offset entry, screened.Tries ofClass offset (.ok entry) →
        ∃ record ∈ table.records, live.classNamed? record.className = some ofClass) ∧
      ∀ record ∈ table.records, ∃ ofClass,
        record.Accounts live screened dumped.archive.narrowing dump.recording.copies ofClass := by
  obtain ⟨ready, asked, screened, dump, taken, origin, screening, here, done, arrives⟩ :=
    exists_arrives closed bounded started ran
  obtain ⟨rfl, vetted, wholes, ⟨log, completes⟩, recorded, listed⟩ := arrives
  obtain ⟨carries, _⟩ := Dump.of_finish done
  obtain ⟨table, read, _, distinct, records⟩ := Dump.exists_table recorded done
  obtain ⟨tiles, intact⟩ := recorded.intact
  have written (page : Page) (member : page ∈ dump.recording.ledger.pages) :=
    (listed.pages page member).isWritten_iff
  have accounts (page : Page) (member : page ∈ dump.recording.ledger.pages)
      (kept : page.isWritten = true) :=
    completes.accounts vetted recorded member ((written page member).mp kept)
  have opened (ofClass : ClassId) (offset : UInt32) (entry : Entry)
      (tries : screened.Tries ofClass offset (.ok entry)) :
      ∃ page ∈ dump.recording.ledger.pages, page.ofClass = ofClass ∧ page.isWritten = true := by
    obtain ⟨outline, found, present⟩ := completes.exists_outline vetted tries
    obtain ⟨page, member, owner, rfl⟩ := Ledger.outline?_eq_some_iff.mp found
    exact ⟨page, member, owner, (written page member).mpr (List.ne_nil_of_mem present)⟩
  have flagged (page : Page) (member : page ∈ dump.recording.ledger.pages)
      (kept : page.isWritten = true) :=
    completes.isPartial_iff vetted (Ledger.outline?_eq_some_iff.mpr ⟨page, member, rfl, rfl⟩)
      ((written page member).mp kept)
  refine ⟨ready, asked, screened, dump, table, taken, origin, screening, here, carries,
    intact.isFaithful, read, distinct, fun name => ⟨?_, ?_⟩, fun ofClass offset entry tries => ?_,
    fun record present => ?_⟩
  · rintro ⟨record, present, rfl, complete⟩
    obtain ⟨page, member, kept, rfl⟩ := (records record).mp present
    obtain ⟨whole, shape, archived⟩ := (flagged page member kept).mp complete
    have named := (accounts page member kept).named
    exact ⟨(wholes _ _ named).mp whole, page.ofClass, shape, named, archived⟩
  · rintro ⟨asks, ofClass, shape, named, archived⟩
    have whole := (wholes name ofClass named).mpr asks
    obtain ⟨field, declared⟩ := Array.exists_mem_of_size_pos archived.declares
    obtain ⟨entry, tries⟩ := archived.archived field declared
    obtain ⟨page, member, rfl, kept⟩ := opened ofClass _ entry tries
    exact ⟨page.toRecord, (records _).mpr ⟨page, member, kept, rfl⟩,
      Live.name_inj (accounts page member kept).named named,
      (flagged page member kept).mpr ⟨whole, shape, archived⟩⟩
  · obtain ⟨page, member, rfl, kept⟩ := opened ofClass offset entry tries
    exact ⟨page.toRecord, (records _).mpr ⟨page, member, kept, rfl⟩,
      (accounts page member kept).named⟩
  · obtain ⟨page, member, kept, rfl⟩ := (records record).mp present
    rw [carries.narrowing]
    exact ⟨page.ofClass, accounts page member kept⟩

/-- The ring is to be archived whole. Its record has these entries, and is partial or not. -/
def RingRecord (settings : Settings) (isPartial : Bool) (offsets : List UInt32) : Prop :=
  ∃ (session ready last : Session) (asked screened : Dump) (dumped : Dumped) (table : RecordTable)
    (record : Record), start settings .ring = .ok session ∧
    [Registration.whole "Node"].foldlM register session = .ok ready ∧ ready.dump = some asked ∧
    asked.screen = .ok screened ∧
    session.run [.whole "Node"] = .ok (last, .ok (some dumped)) ∧
    RecordTable.ofBytes dumped.archive.table = .ok table ∧ table.records = [record] ∧
    record.isPartial = isPartial ∧ record.entries.map (·.offset) = offsets ∧
    (isPartial = false ↔ ∃ shape, screened.ArchivedWhole ⟨0⟩ shape)

/-- Where there is no room for its objects, only the number of the ring is archived. -/
theorem accounts_of_run_ring :
    RingRecord {} false [16, 24] ∧ RingRecord { capacity := 24 } true [24] := by
  have run {settings : Settings} {isPartial : Bool} {offsets : List UInt32}
      (bounded : settings.Bounded)
      (ran : ∃ session, start settings .ring = .ok session ∧
        (left? (session.run [.whole "Node"])).any (fun left =>
          (RecordTable.ofBytes left.2.archive.table).toOption.any fun table =>
            table.records.map (fun record =>
              (record.className, record.isPartial, record.entries.map (·.offset))) ==
                [("Node", isPartial, offsets)]) = true) :
      RingRecord settings isPartial offsets := by
    obtain ⟨session, started, ran⟩ := ran
    obtain ⟨⟨last, dumped⟩, found, checked⟩ := (Option.any_eq_true _ _).mp ran
    obtain ⟨table, read, checked⟩ := any_toOption_iff.mp checked
    obtain ⟨ready, asked, screened, _, other, taken, origin, screening, _, _, _, again, _,
      flags, _⟩ :=
      accounts_of_run Live.closed_ring bounded started (of_left? found)
    cases read.symm.trans again
    have only := eq_of_beq checked
    obtain ⟨record, listed⟩ : ∃ record, table.records = [record] :=
      List.length_eq_one_iff.mp (by rw [← List.length_map, only]; rfl)
    have flag := flags "Node"
    rw [listed] at only flag
    simp only [List.map_cons, List.map_nil, List.cons.injEq, Prod.mk.injEq, and_true] at only
    obtain ⟨title, rfl, rfl⟩ := only
    have named : Live.ring.classNamed? "Node" = some ⟨0⟩ := by decide +kernel
    refine ⟨session, ready, last, asked, screened, dumped, table, record, started, taken, origin,
      screening, of_left? found, read, listed, rfl, rfl, ?_⟩
    simpa [title, named] using flag
  exact ⟨run (by decide) ⟨_, rfl, by decide +kernel⟩, run (by decide) ⟨_, rfl, by decide +kernel⟩⟩

end Session
end FrozenHeap
