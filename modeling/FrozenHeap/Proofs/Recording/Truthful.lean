import FrozenHeap.Proofs.Recording.Faithful

namespace FrozenHeap

/-- An entry holds the value of a static field: its bits, null, or where the copy of
its object is. -/
def Entry.Tells (narrowing : Narrowing) (copies : Copies) (entry : Entry) : Slot → Prop
  | .bits word => entry = .primitive entry.offset word
  | .null => ∃ region, entry = .reference entry.offset region 0
  | .ref root => ∃ place narrow, copies[root]? = some place ∧
      narrowing.narrow place.address = .ok narrow ∧
      entry = .reference entry.offset place.region narrow

/-- A page has the name of its class, the values of its static fields, and names of classes
of the heap. -/
structure Page.Truthful (live : Live) (narrowing : Narrowing) (copies : Copies) (page : Page) :
    Prop where
  named : ∃ loaded, live.classes[page.ofClass.index]? = some loaded ∧
    loaded.shape.name = page.name
  entries : ∀ entry ∈ page.entries, ∃ slot,
    live.static? page.ofClass entry.offset = some slot ∧ entry.Tells narrowing copies slot
  classes : ∀ met ∈ page.classes, met.2 ∈ live.classNames

namespace Page.Truthful

variable {live : Live} {narrowing : Narrowing} {copies : Copies} {page : Page}

theorem grow (truthful : page.Truthful live narrowing copies) {later : Copies}
    (grows : ∀ (object : ObjectId) (place : Place),
      copies[object]? = some place → later[object]? = some place) :
    page.Truthful live narrowing later := by
  refine { truthful with entries := fun entry listed => ?_ }
  obtain ⟨slot, value, tells⟩ := truthful.entries entry listed
  refine ⟨slot, value, ?_⟩
  cases slot with
  | bits _ => exact tells
  | null => exact tells
  | ref root =>
    obtain ⟨place, narrow, known, rest⟩ := tells
    exact ⟨place, narrow, grows root place known, rest⟩

theorem blank {ofClass : ClassId} {shape : ClassShape} (known : live.shapeOf ofClass = .ok shape)
    (isPartial : Bool) :
    (Page.blank ofClass shape.name isPartial).Truthful live narrowing copies where
  named := by
    obtain ⟨loaded, found, same⟩ := bind_eq_ok_iff.mp known
    cases same
    exact ⟨loaded, entryAt_eq_ok_iff.mp found, rfl⟩
  entries _ listed := absurd listed (Array.not_mem_empty _)
  classes _ listed := absurd listed (Array.not_mem_empty _)

theorem markPartial (truthful : page.Truthful live narrowing copies) :
    page.markPartial.Truthful live narrowing copies :=
  ⟨truthful.named, truthful.entries, truthful.classes⟩

theorem addEntry (truthful : page.Truthful live narrowing copies) {entry : Entry} {slot : Slot}
    (value : live.static? page.ofClass entry.offset = some slot)
    (tells : entry.Tells narrowing copies slot) :
    Page.Truthful live narrowing copies { page with entries := page.entries.push entry } where
  named := truthful.named
  entries other listed := by
    rcases Array.mem_push.mp listed with old | rfl
    · exact truthful.entries other old
    · exact ⟨slot, value, tells⟩
  classes := truthful.classes

theorem addClass {met : ClassId × String} (familiar : met.2 ∈ live.classNames)
    (truthful : page.Truthful live narrowing copies) :
    (page.addClass met).Truthful live narrowing copies := by
  unfold Page.addClass
  split
  · exact truthful
  · refine ⟨truthful.named, truthful.entries, fun pair listed => ?_⟩
    rcases Array.mem_push.mp listed with old | rfl
    · exact truthful.classes pair old
    · exact familiar

theorem addClasses {met : List (ClassId × String)}
    (familiar : ∀ pair ∈ met, pair.2 ∈ live.classNames)
    (truthful : page.Truthful live narrowing copies) :
    (met.foldl (·.addClass ·) page).Truthful live narrowing copies := by
  induction met generalizing page with
  | nil => exact truthful
  | cons head rest ih =>
    exact ih (fun pair member => familiar pair (List.mem_cons_of_mem _ member))
      (truthful.addClass (familiar head List.mem_cons_self))

end Page.Truthful

theorem Walk.Runs.listed {live : Live} {screening : Screening} {region : Region}
    {stack last : List ObjectId} {walk final : Walk}
    (runs : Runs live screening region stack walk last final)
    (familiar : ∀ met ∈ walk.classes, met.2 ∈ live.classNames) :
    ∀ met ∈ final.classes, met.2 ∈ live.classNames := by
  refine runs.preserves (fun _ walk => ∀ met ∈ walk.classes, met.2 ∈ live.classNames) ?_ familiar
  intro _ _ _ _ step familiar met listed
  have extended {seen : Portrait} {object : ObjectId} {classes : Array (ClassId × String)}
      (found : live.portrait? object = some seen) (old : ∀ met ∈ classes, met.2 ∈ live.classNames)
      (listed : met ∈ classes.push (seen.ofClass, seen.shape.name)) : met.2 ∈ live.classNames := by
    rcases Array.mem_push.mp listed with before | rfl
    · exact old met before
    · exact Live.name_mem_of_portrait? found
  cases step with
  | again => exact familiar met listed
  | cached found => exact extended found familiar listed
  | laid found => exact extended found familiar listed

namespace Recording

/-- The round in progress is one for this root. -/
def Rooted (recording : Recording) (root : ClassId) : Prop :=
  ∃ round, recording.current = some round ∧ round.root = root

/-- The copies are finished and the pages are true. -/
structure Truthful (live : Live) (recording : Recording) : Prop where
  intact : ∃ tiles, recording.Intact live.classNames live.portrait? tiles
  pages : ∀ page ∈ recording.ledger.pages,
    page.Truthful live recording.draft.narrowing recording.copies

variable {live : Live} {screening : Screening} {recording after : Recording} {tiles : List Tile}
  {round : Round} {root : ObjectId} {region : Region}

/-- What copying a graph leaves of copies, of the narrowing and of the round in progress. -/
theorem Intact.grows_copyGraph (intact : recording.Intact live.classNames live.portrait? tiles)
    (current : recording.current = some round) {outcome : Outcome Place}
    (done : recording.copyGraph round live screening root region = .ok (outcome, after)) :
    after.draft.narrowing = recording.draft.narrowing ∧
      (∀ (object : ObjectId) (place : Place),
        recording.copies[object]? = some place → after.copies[object]? = some place) ∧
      after.Rooted round.root ∧
      (after.ledger = recording.ledger ∨ ∃ met : List (ClassId × String),
        (∀ pair ∈ met, pair.2 ∈ live.classNames) ∧
        after.ledger = recording.ledger.addClasses round.root met) := by
  unfold Recording.copyGraph at done
  simp only at done
  split at done
  · cases done
  · rename_i failure walk failed
    cases done
    have same := (intact.failed current (fun _ listed => listed) failed).1
    rw [same]
    exact ⟨rfl, fun _ _ known => known, ⟨_, rfl, rfl⟩, .inl rfl⟩
  · rename_i walk walked
    have runs := Walk.runs_of_advance_ok walked
    obtain ⟨fresh, laying⟩ := Walk.Laying.runs runs ⟨[], intact.laying current root live region⟩
    obtain ⟨draft, patched, rewrites, _⟩ := intact.linked.link laying fun _ _ => runs.keeps
    have kept : recording.keep round walk = .ok (recording.adopt round walk draft) := by
      rw [keep, patched]
      rfl
    simp only [kept, bind, Except.bind] at done
    split at done
    · cases done
      refine ⟨rewrites.narrowing.trans laying.grown.narrowing, fun _ _ => runs.keeps,
        ⟨_, rfl, rfl⟩, .inr ⟨walk.classes.toList, fun pair member => ?_, rfl⟩⟩
      exact runs.listed (fun _ listed => absurd listed (Array.not_mem_empty _)) pair
        (Array.mem_toList_iff.mp member)
    · cases done

namespace Truthful

/-- Only the copies, the narrowing and the pages matter. -/
theorem congr (truthful : recording.Truthful live)
    (intact : ∃ tiles, after.Intact live.classNames live.portrait? tiles)
    (narrowing : after.draft.narrowing = recording.draft.narrowing)
    (copies : ∀ (object : ObjectId) (place : Place),
      recording.copies[object]? = some place → after.copies[object]? = some place)
    (pages : ∀ page ∈ after.ledger.pages, page ∈ recording.ledger.pages ∨
      page.Truthful live recording.draft.narrowing recording.copies) : after.Truthful live where
  intact := intact
  pages page member := by
    rw [narrowing]
    rcases pages page member with old | new
    · exact (truthful.pages page old).grow copies
    · exact new.grow copies

theorem recount (truthful : recording.Truthful live) (totals : Totals) :
    Truthful live { recording with totals := totals } where
  intact := by
    obtain ⟨tiles, intact⟩ := truthful.intact
    exact ⟨tiles, intact.congr rfl rfl intact.seen⟩
  pages := truthful.pages

theorem copyGraph (truthful : recording.Truthful live) (current : recording.current = some round)
    {outcome : Outcome Place}
    (done : recording.copyGraph round live screening root region = .ok (outcome, after)) :
    after.Truthful live ∧ after.Rooted round.root ∧
      ∀ place, outcome = .ok place → after.copies[root]? = some place := by
  obtain ⟨tiles, intact⟩ := truthful.intact
  obtain ⟨more, finished, found⟩ := intact.copyGraph current (fun _ listed => listed) done
  obtain ⟨narrowing, copies, rooted, ledger⟩ := intact.grows_copyGraph current done
  rw [remember_self] at finished
  refine ⟨truthful.congr ⟨_, finished⟩ narrowing copies fun page member => ?_, rooted, found⟩
  rcases ledger with same | ⟨met, familiar, same⟩
  · exact .inl (same ▸ member)
  · rw [same] at member
    rcases Ledger.mem_modify member with old | ⟨old, present, _, rfl⟩
    · exact .inl old
    · exact .inr ((truthful.pages old present).addClasses familiar)

/-- An entry that holds the value of a static field of the root in progress may be entered. -/
theorem enter (truthful : recording.Truthful live) (rooted : recording.Rooted round.root)
    (entry : Entry) {slot : Slot} (value : live.static? round.root entry.offset = some slot)
    (tells : entry.Tells recording.draft.narrowing recording.copies slot)
    {outcome : Outcome Entry} (done : recording.enter round entry = .ok (outcome, after)) :
    after.Truthful live ∧ after.Rooted round.root := by
  obtain ⟨tiles, intact⟩ := truthful.intact
  have finished := intact.enter done
  obtain ⟨ledger, added, same⟩ := bind_eq_ok_iff.mp done
  cases same
  refine ⟨truthful.congr ⟨tiles, finished⟩ rfl (fun _ _ known => known) fun page member => ?_,
    rooted⟩
  rcases Ledger.mem_addEntry added member with old | ⟨old, present, owner, _, rfl⟩
  · exact .inl old
  · exact .inr ((truthful.pages old present).addEntry (owner ▸ value) tells)

theorem archiveObject (truthful : recording.Truthful live)
    (current : recording.current = some round)
    {offset : UInt32} (value : live.static? round.root offset = some (.ref root))
    {outcome : Outcome Entry}
    (done : recording.archiveObject round live screening root offset region =
      .ok (outcome, after)) : after.Truthful live ∧ after.Rooted round.root := by
  obtain ⟨⟨copied, middle⟩, copying, done⟩ := bind_eq_ok_iff.mp done
  obtain ⟨kept, rooted, found⟩ := truthful.copyGraph current copying
  cases copied with
  | error failure =>
    cases done
    exact ⟨kept, rooted⟩
  | ok place =>
    obtain ⟨compared, comparing, done⟩ := bind_eq_ok_iff.mp done
    cases compared with
    | error failure =>
      cases done
      exact ⟨kept, rooted⟩
    | ok compared =>
      obtain ⟨narrow, narrowed, done⟩ := bind_eq_ok_iff.mp done
      have same := Intact.compare_ok comparing
      obtain ⟨tiles, intact⟩ := kept.intact
      have finished : compared.Truthful live := by
        rw [same]
        exact ⟨⟨tiles, intact.congr rfl rfl intact.seen⟩, kept.pages⟩
      have copies : compared.copies = middle.copies := by rw [same]
      have rooted : compared.Rooted round.root := by
        rw [same]
        exact rooted
      refine finished.enter rooted (.reference offset place.region narrow) value ?_ done
      exact ⟨place, narrow, copies ▸ found place rfl, narrowed, rfl⟩

/-- Archiving a static field of the root in progress enters what it holds. -/
theorem archiveStatic (truthful : recording.Truthful live) {ofClass : ClassId}
    (rooted : recording.Rooted ofClass) {offset : UInt32} {outcome : Outcome Entry}
    (done : recording.archiveStatic live screening ofClass offset region = .ok (outcome, after)) :
    after.Truthful live ∧ after.Rooted ofClass := by
  obtain ⟨round, current, rfl⟩ := rooted
  simp only [Recording.archiveStatic, current] at done
  obtain ⟨shape, _, done⟩ := bind_eq_ok_iff.mp done
  split at done
  · cases done
    exact ⟨truthful, round, current, rfl⟩
  · rename_i word value
    exact truthful.enter ⟨round, current, rfl⟩ (.primitive offset word) value rfl done
  · rename_i value
    exact truthful.enter ⟨round, current, rfl⟩ (.reference offset region 0) value
      ⟨region, rfl⟩ done
  · rename_i root value
    exact truthful.archiveObject current value done

theorem start {settings : Settings} {draft : Draft} (started : Draft.start settings = .ok draft)
    (bounded : settings.Bounded) (verifies : Bool) :
    (Recording.start draft verifies).Truthful live where
  intact := ⟨[], .start started bounded verifies⟩
  pages _ member := absurd member (Array.not_mem_empty _)

theorem startRound (truthful : recording.Truthful live) {ofClass : ClassId} {isPartial : Bool}
    (done : recording.startRound live ofClass isPartial = .ok after) :
    after.Truthful live ∧ after.Rooted ofClass := by
  obtain ⟨tiles, intact⟩ := truthful.intact
  have finished := intact.startRound done
  obtain ⟨_, _, done⟩ := bind_eq_ok_iff.mp done
  obtain ⟨shape, known, same⟩ := bind_eq_ok_iff.mp done
  cases same
  have entered (page : Page)
      (member : page ∈ (recording.ledger.enter ofClass shape.name isPartial).pages) :
      page.Truthful live recording.draft.narrowing recording.copies := by
    rcases Ledger.mem_enter member with old | rfl
    · exact truthful.pages page old
    · exact .blank known isPartial
  refine ⟨truthful.congr ⟨tiles, finished⟩ rfl (fun _ _ known => known) fun page member => .inr ?_,
    _, rfl, rfl⟩
  split at member
  · rcases Ledger.mem_markPartial member with old | ⟨old, present, rfl⟩
    · exact entered page old
    · exact (entered old present).markPartial
  · exact entered page member

theorem markPartial (truthful : recording.Truthful live) {ofClass : ClassId}
    (rooted : recording.Rooted ofClass) :
    recording.markPartial.Truthful live ∧ recording.markPartial.Rooted ofClass := by
  obtain ⟨tiles, intact⟩ := truthful.intact
  have finished := intact.markPartial
  obtain ⟨round, current, rfl⟩ := rooted
  simp only [Recording.markPartial, current] at finished ⊢
  refine ⟨truthful.congr ⟨tiles, finished⟩ rfl (fun _ _ known => known) fun page member => ?_,
    round, rfl, rfl⟩
  rcases Ledger.mem_markPartial member with old | ⟨old, present, rfl⟩
  · exact .inl old
  · exact .inr (truthful.pages old present).markPartial

theorem endRound (truthful : recording.Truthful live) {tally : Tally}
    (done : recording.endRound = .ok (tally, after)) : after.Truthful live := by
  obtain ⟨tiles, intact⟩ := truthful.intact
  have finished := intact.endRound done
  unfold Recording.endRound at done
  split at done
  · cases done
  · split at done
    · cases done
    · cases done
      exact truthful.congr ⟨tiles, finished⟩ rfl (fun _ _ known => known) fun _ member =>
        .inl member

end Truthful
end Recording
end FrozenHeap
