import FrozenHeap.Proofs.Recording.Chronicle
import FrozenHeap.Proofs.Recording.Complete
import FrozenHeap.Proofs.Recording.Residue

/-! Class lists. A walk passes over what the recording in progress has seen. Nothing that this
refers to is unseen, and its classes are listed, so the classes of the walk complete the page
of its root. -/

namespace FrozenHeap

/-- What a round has seen is enclosed, and a page lists its classes. -/
structure Round.Listed (live : Live) (round : Round) (page : Page) : Prop where
  enclosed : live.Enclosed round.seen
  listed : ∀ object seen, round.seen.contains object = true → live.portrait? object = some seen →
    page.hasClass seen.ofClass = true

namespace Walk.Log

variable {live : Live} {region : Region} {before : Draft} {copies : Copies} {round : Round}
  {root : ObjectId} {walk : Walk}
  (log : Log live region before copies round.seen walk)
  (met : ∀ object, object ∈ walk.met ↔ live.Visits round.seen root object)
include log

theorem contains_iff {object : ObjectId} : walk.seen.contains object = true ↔
    round.seen.contains object = true ∨ object ∈ walk.met := by
  by_cases fresh : object ∈ walk.met
  · simp [log.marked object fresh, fresh]
  · simp [log.undoable.old object fresh, fresh]

theorem classNamed? {pair : ClassId × String} (member : pair ∈ walk.classes.toList) :
    live.classNamed? pair.2 = some pair.1 := by
  rw [log.classes] at member
  obtain ⟨object, _, found⟩ := List.mem_filterMap.mp member
  obtain ⟨seen, here, rfl⟩ := Option.map_eq_some_iff.mp found
  exact Live.classNamed?_of_portrait? here

include met

/-- Next to the classes listed before, a walk lists those of the objects reachable from its root. -/
theorem mem_classes {page : Page} (listed : round.Listed live page) (ofClass : ClassId) :
    page.hasClass ofClass = true ∨ ofClass ∈ walk.classes.toList.map (·.1) ↔
      page.hasClass ofClass = true ∨ live.LeadsTo root ofClass := by
  rw [log.classes, Live.mem_listings]
  simp only [Array.mem_toList_iff, met]
  constructor
  · rintro (old | ⟨object, visits, seen, found, same⟩)
    · exact .inl old
    · exact .inr ⟨object, seen, visits.reaches, found, same⟩
  · rintro (old | ⟨object, seen, path, found, rfl⟩)
    · exact .inl old
    · rcases listed.enclosed.visits path with visits | before
      · exact .inr ⟨object, visits, seen, found, rfl⟩
      · exact .inl (listed.listed object seen before found)

/-- What a round has seen after a walk is enclosed, as it was before. -/
theorem enclosed (enclosed : live.Enclosed round.seen) : live.Enclosed walk.seen := by
  intro holder target before edge
  rw [log.contains_iff] at before ⊢
  by_cases old : round.seen.contains target = true
  · exact .inl old
  · rcases before with seen | visited
    · exact absurd (enclosed holder target seen edge) old
    · have reached := (met holder).mp visited
      have fresh : round.seen.contains target = false := Bool.eq_false_iff.mpr old
      exact .inr ((met target).mpr (reached.next edge fresh))

/-- A round goes on with the classes of the walk on the page of its root. -/
theorem listed {page : Page} (listed : round.Listed live page) (entry : Entry) (tally : Tally) :
    Round.Listed live ⟨round.root, walk.seen, tally⟩ (page.record walk.classes.toList entry) where
  enclosed := log.enclosed met listed.enclosed
  listed object seen present found := by
    apply Page.hasClass_record.mpr
    rcases log.contains_iff.mp present with old | visited
    · exact .inl (listed.listed object seen old found)
    · have walked : object ∈ walk.met.toList := Array.mem_toList_iff.mpr visited
      rw [log.classes]
      exact .inr (Live.mem_listings.mpr ⟨object, walked, seen, found, rfl⟩)

end Walk.Log

namespace Recording

/-- The copies are finished, the pages are complete, and what the round in progress has seen is on
the page of its root. -/
structure Listed (live : Live) (recording : Recording) : Prop where
  intact : ∃ tiles, recording.Intact live.classNames live.portrait? tiles
  pages : ∀ page ∈ recording.ledger.pages,
    page.Complete live recording.draft.narrowing recording.copies
  round : ∀ round, recording.current = some round →
    ∃ page, recording.ledger.page? round.root = some page ∧ round.Listed live page

namespace Listed

variable {live : Live} {screening : Screening} {recording after : Recording} {round : Round}
  {ofClass : ClassId} {offset : UInt32} {region : Region}

theorem start {settings : Settings} {draft : Draft} (started : Draft.start settings = .ok draft)
    (bounded : settings.Bounded) (verifies : Bool) :
    (Recording.start draft verifies).Listed live where
  intact := ⟨[], .start started bounded verifies⟩
  pages _ member := absurd member (Array.not_mem_empty _)
  round _ current := by cases current

theorem startRound (listed : recording.Listed live) {isPartial : Bool}
    (done : recording.startRound live ofClass isPartial = .ok after) : after.Listed live := by
  obtain ⟨tiles, intact⟩ := listed.intact
  have finished := intact.startRound done
  obtain ⟨_, _, done⟩ := bind_eq_ok_iff.mp done
  obtain ⟨shape, _, same⟩ := bind_eq_ok_iff.mp done
  cases same
  have entered (page : Page)
      (member : page ∈ (recording.ledger.enter ofClass shape.name isPartial).pages) :
      page.Complete live recording.draft.narrowing recording.copies := by
    rcases Ledger.mem_enter member with old | rfl
    · exact listed.pages page old
    · exact .blank ofClass shape.name isPartial
  refine ⟨⟨tiles, finished⟩, fun page member => ?_, fun round here => ?_⟩
  · split at member
    · rcases Ledger.mem_markPartial member with old | ⟨old, present, rfl⟩
      · exact entered page old
      · exact (entered old present).markPartial
    · exact entered page member
  · cases here
    -- A round that has just begun has seen nothing.
    refine (Option.isSome_iff_exists.mp ?_).imp fun page found => ⟨found, ?_⟩
    · show (Ledger.page? (if isPartial = true then _ else _) ofClass).isSome = true
      split
      · rw [Ledger.isSome_page?_markPartial, Ledger.isSome_page?_enter]
      · exact Ledger.isSome_page?_enter
    · exact ⟨fun _ _ seen => by simp at seen, fun _ _ seen => by simp at seen⟩

theorem markPartial (listed : recording.Listed live) : recording.markPartial.Listed live := by
  obtain ⟨tiles, intact⟩ := listed.intact
  have finished := intact.markPartial
  unfold Recording.markPartial at finished ⊢
  split at finished
  · rename_i round current
    refine ⟨⟨tiles, finished⟩, fun page member => ?_, fun other here => ?_⟩
    · rcases Ledger.mem_markPartial member with old | ⟨old, present, rfl⟩
      · exact listed.pages page old
      · exact (listed.pages old present).markPartial
    · obtain ⟨page, found, seen⟩ := listed.round other here
      cases current.symm.trans here
      exact ⟨page.markPartial, Ledger.page?_markPartial found, seen.enclosed, seen.listed⟩
  · exact listed

theorem endRound (listed : recording.Listed live) {tally : Tally}
    (done : recording.endRound = .ok (tally, after)) : after.Listed live := by
  obtain ⟨tiles, intact⟩ := listed.intact
  have finished := intact.endRound done
  unfold Recording.endRound at done
  split at done
  · cases done
  · split at done
    · cases done
    · cases done
      exact ⟨⟨tiles, finished⟩, listed.pages, fun _ here => by cases here⟩

/-- An entry goes onto the page of the round in progress, with the classes met behind it. -/
theorem record (listed : recording.Listed live) (current : recording.current = some round)
    (entry : Entry) (slot : Slot) (met : List (ClassId × String)) {seen : Seen} {tally : Tally}
    {tiles : List Tile} (finished : after.Intact live.classNames live.portrait? tiles)
    (narrowing : after.draft.narrowing = recording.draft.narrowing)
    (grows : ∀ (object : ObjectId) (place : Place),
      recording.copies[object]? = some place → after.copies[object]? = some place)
    (entered : (recording.ledger.addClasses round.root met).addEntry round.root entry =
      .ok after.ledger)
    (later : after.current = some ⟨round.root, seen, tally⟩)
    (tells : entry.Tells after.draft.narrowing after.copies slot)
    (named : ∀ pair ∈ met, live.classNamed? pair.2 = some pair.1)
    (behind : ∀ page, round.Listed live page → ∀ ofClass,
      page.hasClass ofClass = true ∨ ofClass ∈ met.map (·.1) ↔
        page.hasClass ofClass = true ∨ ∃ root, slot = .ref root ∧ live.LeadsTo root ofClass)
    (sees : ∀ page, round.Listed live page →
      Round.Listed live ⟨round.root, seen, tally⟩ (page.record met entry)) : after.Listed live := by
  obtain ⟨page, found, inside⟩ := listed.round round current
  have tiling := finished.linked.tiling
  have grown (old : Page) (member : old ∈ recording.ledger.pages) :
      old.Complete live after.draft.narrowing after.copies :=
    (narrowing ▸ listed.pages old member).grow tiling grows
  have ledger := Ledger.addEntry_ok entered
  refine ⟨⟨tiles, finished⟩, fun other member => ?_, fun again here => ?_⟩
  · rw [ledger] at member
    rcases Ledger.mem_modify_iff.mp member with ⟨old, apart⟩ | ⟨old, present, owner, rfl⟩
    · rcases Ledger.mem_modify old with before | ⟨before, _, owner, rfl⟩
      · exact grown other before
      · exact absurd ((Page.ofClass_foldl_addClass met before).trans owner) apart
    · rcases Ledger.mem_modify_iff.mp present with ⟨_, apart⟩ | ⟨before, there, here, rfl⟩
      · exact absurd owner apart
      · cases found.symm.trans (Ledger.page?_eq_some_iff.mpr ⟨there, here⟩)
        exact (grown page there).record tiling tells named (behind page inside)
  · cases later.symm.trans here
    refine ⟨page.record met entry, ?_, sees page inside⟩
    rw [ledger, Ledger.page?_modify, if_pos rfl, Ledger.addClasses, Ledger.page?_modify, if_pos rfl,
      found]
    rfl

/-- A field that does not refer to an object adds no classes. -/
theorem enter (listed : recording.Listed live) (current : recording.current = some round)
    (entry : Entry) (slot : Slot) (nowhere : ∀ root, slot ≠ .ref root)
    (tells : entry.Tells recording.draft.narrowing recording.copies slot)
    {outcome : Outcome Entry} (done : recording.enter round entry = .ok (outcome, after)) :
    after.Listed live := by
  obtain ⟨tiles, intact⟩ := listed.intact
  have finished := intact.enter done
  obtain ⟨ledger, entered, same⟩ := bind_eq_ok_iff.mp done
  cases same
  have still : recording.ledger.addClasses round.root [] = recording.ledger :=
    Ledger.modify_eq_self fun _ _ => rfl
  refine listed.record current entry slot [] finished rfl (fun _ _ known => known)
    (by rw [still]; exact entered) current tells (by simp) ?_ ?_
  · intro page _ ofClass
    simp [nowhere]
  · intro page seen
    exact ⟨seen.enclosed, seen.listed⟩

/-- A field that refers to an object adds the classes of its graph, or nothing. -/
theorem archiveObject (listed : recording.Listed live) (current : recording.current = some round)
    {root : ObjectId} {outcome : Outcome Entry}
    (done : recording.archiveObject round live screening root offset region =
      .ok (outcome, after)) : after.Listed live := by
  obtain ⟨tiles, intact⟩ := listed.intact
  obtain ⟨⟨copied, middle⟩, copying, done⟩ := bind_eq_ok_iff.mp done
  obtain ⟨more, finished, known⟩ := intact.copyGraph current (fun _ member => member) copying
  rw [remember_self] at finished
  cases copied with
  | error failure =>
    cases done
    obtain ⟨walk, failed, rfl⟩ := copyGraph_error copying
    obtain ⟨same, kept⟩ := intact.failed current (fun _ member => member) failed
    rw [same] at kept ⊢
    refine ⟨⟨tiles, kept⟩, listed.pages, fun other here => ?_⟩
    cases here
    obtain ⟨page, found, seen⟩ := listed.round round current
    exact ⟨page, found, seen.enclosed, seen.listed⟩
  | ok place =>
    -- The comparison succeeds, because the heap did not change since its objects were copied.
    obtain ⟨totals, agrees⟩ := finished.exists_compare (known place rfl)
    obtain ⟨compared, comparing, done⟩ := bind_eq_ok_iff.mp done
    cases agrees.symm.trans comparing
    obtain ⟨narrow, narrowed, done⟩ := bind_eq_ok_iff.mp done
    obtain ⟨ledger, entered, same⟩ := bind_eq_ok_iff.mp done
    cases same
    obtain ⟨walk, draft, walked, linked, rfl, found⟩ := copyGraph_ok copying
    obtain ⟨log, met⟩ := Walk.log_of_advance walked
    obtain ⟨narrowing, grows, _⟩ := intact.grows_copyGraph current copying
    refine listed.record current (.reference offset place.region narrow) (.ref root)
      walk.classes.toList (finished.congr rfl rfl finished.seen) narrowing grows entered rfl
      ⟨place, narrow, found, narrowed, rfl⟩ (fun _ => log.classNamed?) ?_ ?_
    · intro page seen ofClass
      simpa using log.mem_classes met seen ofClass
    · intro page seen
      exact log.listed met seen _ _

theorem archiveStatic (listed : recording.Listed live) {outcome : Outcome Entry}
    (done : recording.archiveStatic live screening ofClass offset region = .ok (outcome, after)) :
    after.Listed live := by
  unfold Recording.archiveStatic at done
  split at done
  · cases done
  rename_i round current
  obtain ⟨shape, _, done⟩ := bind_eq_ok_iff.mp done
  split at done
  · cases done
    exact listed
  · rename_i word _
    exact listed.enter current (.primitive offset word) (.bits word) (by simp) rfl done
  · exact listed.enter current (.reference offset region 0) .null (by simp) ⟨region, rfl⟩ done
  · exact listed.archiveObject current done

end Listed
end Recording

/-- A call looks at this heap and at this screening, if at any. -/
def Call.LooksAt (live : Live) (screening : Screening) : Call → Prop
  | .start other _ _ => other = live
  | .archive other judged _ _ _ => other = live ∧ judged = screening
  | .markPartial => True
  | .finish => True

namespace Recording

variable {live : Live} {screening : Screening} {recording after : Recording}

theorem Listed.perform (listed : recording.Listed live) {call : Call}
    (looks : call.LooksAt live screening) (done : call.perform recording = .ok after) :
    after.Listed live := by
  cases call with
  | start other root isPartial =>
    obtain rfl : other = live := looks
    exact listed.startRound done
  | archive other judged ofClass offset region =>
    obtain ⟨rfl, rfl⟩ := looks
    obtain ⟨⟨outcome, later⟩, archived, same⟩ := bind_eq_ok_iff.mp done
    cases same
    exact listed.archiveStatic archived
  | markPartial =>
    cases done
    exact listed.markPartial
  | finish =>
    obtain ⟨⟨tally, later⟩, ended, same⟩ := bind_eq_ok_iff.mp done
    cases same
    exact listed.endRound ended

theorem Listed.play {calls : List Call} (listed : recording.Listed live)
    (looks : ∀ call ∈ calls, call.LooksAt live screening)
    (played : calls.foldlM Call.perform recording = .ok after) : after.Listed live :=
  foldlM_preserves (Listed live)
    (fun call member _ _ done listed => listed.perform (looks call member) done) listed played

/-- An entry holds a narrow reference to the copy of an object. -/
def RefersTo (recording : Recording) (entry : Entry) (object : ObjectId) : Prop :=
  ∃ narrow place, entry.narrow? = some narrow ∧
    recording.draft.resolve? narrow = .ok (some place) ∧ recording.copies[object]? = some place

private theorem narrow?_reference (offset : UInt32) (region : Region) (narrow : Narrow) :
    (Entry.reference offset region narrow).narrow? = some narrow := by
  have small : narrow.toUInt64.toNat < UInt32.size := by
    rw [UInt32.toNat_toUInt64]
    exact narrow.toNat_lt
  simp only [Entry.narrow?, Entry.reference, small, if_true, UInt32.toUInt32_toUInt64]

/-- The entries that hold a reference to the copy of an object are read as such. -/
theorem Listed.refersTo_iff (listed : recording.Listed live) {page : Page}
    (member : page ∈ recording.ledger.pages) {entry : Entry} (present : entry ∈ page.entries)
    {root : ObjectId} : recording.RefersTo entry root ↔
      entry.Tells recording.draft.narrowing recording.copies (.ref root) := by
  obtain ⟨tiles, intact⟩ := listed.intact
  have linked := intact.linked
  have reads {object : ObjectId}
      (tells : entry.Tells recording.draft.narrowing recording.copies (.ref object)) :
      recording.RefersTo entry object := by
    obtain ⟨place, narrow, known, narrowed, same⟩ := tells
    obtain ⟨tile, there, rfl, rfl⟩ := (linked.tiling.copied object place).mp known
    obtain ⟨_, again, _, _, resolved⟩ := linked.tiling.exists_narrow there
    cases narrowed.symm.trans again
    exact ⟨narrow, _, same ▸ narrow?_reference _ _ narrow, resolved, known⟩
  refine ⟨?_, reads⟩
  rintro ⟨narrow, place, held, resolved, known⟩
  obtain ⟨slot, tells⟩ := (listed.pages page member).told entry present
  cases slot with
  | bits word =>
    rw [show entry = .primitive entry.offset word from tells] at held
    cases held
  | null =>
    obtain ⟨region, same⟩ := tells
    rw [same, narrow?_reference] at held
    cases held
    cases resolved
  | ref other =>
    obtain ⟨again, there, read, leads, found⟩ := reads tells
    cases held.symm.trans read
    cases resolved.symm.trans leads
    rw [linked.injective known found]
    exact tells

/-- The entries of a page that are not null refer to copies of objects, and its class list has the
names of the classes of all objects reachable from these, each of them once, and no others. -/
structure ListsReachable (live : Live) (recording : Recording) (page : Page) : Prop where
  refers : ∀ entry ∈ page.entries, ∀ narrow, entry.narrow? = some narrow → narrow ≠ 0 →
    ∃ root, recording.RefersTo entry root
  distinct : (page.classes.toList.map (·.2)).Nodup
  names : ∀ name, name ∈ page.classes.toList.map (·.2) ↔
    ∃ entry ∈ page.entries, ∃ root, recording.RefersTo entry root ∧
      ∃ object seen, live.Reaches root object ∧ live.portrait? object = some seen ∧
        seen.shape.name = name

/-- When a heap that does not change is recorded, under a screening that does not change, the class
lists are exact after every call, whichever calls fail and however often a root is recorded. -/
theorem listsReachable_of_perform {settings : Settings} {draft : Draft} {verifies : Bool}
    {calls : List Call} (started : Draft.start settings = .ok draft) (bounded : settings.Bounded)
    (looks : ∀ call ∈ calls, call.LooksAt live screening)
    (played : calls.foldlM Call.perform (start draft verifies) = .ok recording) :
    ∀ page ∈ recording.ledger.pages, recording.ListsReachable live page := by
  have listed := (Listed.start started bounded verifies).play looks played
  intro page member
  have complete := listed.pages page member
  refine ⟨fun entry present narrow held live => ?_, complete.nodup_names, fun name => ?_⟩
  · obtain ⟨slot, tells⟩ := complete.told entry present
    cases slot with
    | bits word =>
      rw [show entry = .primitive entry.offset word from tells] at held
      cases held
    | null =>
      obtain ⟨region, same⟩ := tells
      rw [same, narrow?_reference] at held
      cases held
      exact absurd rfl live
    | ref root => exact ⟨root, (listed.refersTo_iff member present).mpr tells⟩
  · rw [complete.mem_names]
    constructor
    · rintro ⟨ofClass, met, named⟩
      obtain ⟨entry, present, root, tells, object, seen, path, found, rfl⟩ :=
        (complete.listed ofClass).mp met
      refine ⟨entry, present, root, (listed.refersTo_iff member present).mpr tells, object, seen,
        path, found, ?_⟩
      exact Live.name_inj (Live.classNamed?_of_portrait? found) named
    · rintro ⟨entry, present, root, refers, object, seen, path, found, rfl⟩
      have tells := (listed.refersTo_iff member present).mp refers
      have met := (complete.listed _).mpr
        ⟨entry, present, root, tells, object, seen, path, found, rfl⟩
      exact ⟨seen.ofClass, met, Live.classNamed?_of_portrait? found⟩

/-- Two roots that share a leaf. A second field of the first root leads to a lock. -/
def forked : Live where
  classes := #[{
      shape := {
        name := "Index"
        traits := .plain
        statics := #[⟨"first", 16, true⟩, ⟨"second", 24, true⟩, ⟨"third", 32, true⟩]
        placed := by decide }
      statics := #[.ref ⟨0⟩, .ref ⟨2⟩, .null]
      sized := rfl }, {
      shape := {
        name := "Tail"
        traits := .plain
        statics := #[⟨"last", 16, true⟩]
        placed := by decide }
      statics := #[.ref ⟨1⟩]
      sized := rfl },
    .ofShape (.named "Node" .plain), .ofShape (.named "Leaf" .plain),
    .ofShape (.named "Lock" ⟨true, false⟩)]
  objects := #[⟨⟨2⟩, #[.ref ⟨1⟩, .ref ⟨1⟩]⟩, ⟨⟨3⟩, #[.bits 7]⟩, ⟨⟨2⟩, #[.ref ⟨1⟩, .ref ⟨3⟩]⟩,
    ⟨⟨4⟩, #[]⟩]
  distinct := by decide
  classified := by decide
  numbered := by decide

/-- The first root is recorded twice, around the other one, and its second field fails. -/
def forkedCalls : List Call :=
  [.start forked ⟨0⟩ false, .archive forked (.start []) ⟨0⟩ 16 .opened,
    .archive forked (.start []) ⟨0⟩ 24 .opened, .finish,
    .start forked ⟨1⟩ false, .archive forked (.start []) ⟨1⟩ 16 .opened, .finish,
    .start forked ⟨0⟩ true, .archive forked (.start []) ⟨0⟩ 32 .opened]

theorem listsReachable_of_perform_forked : ∃ draft recording, Draft.start {} = .ok draft ∧
    forkedCalls.foldlM Call.perform (start draft true) = .ok recording ∧
    recording.ledger.pages.toList.map (fun page => (page.name, page.classes.toList.map (·.2))) =
      [("Index", ["Node", "Leaf"]), ("Tail", ["Leaf"])] ∧
    ∀ page ∈ recording.ledger.pages, recording.ListsReachable forked page := by
  obtain ⟨draft, started, lists⟩ : ∃ draft, Draft.start {} = .ok draft ∧
      ((forkedCalls.foldlM Call.perform (start draft true)).map fun recording =>
        recording.ledger.pages.toList.map fun page =>
          (page.name, page.classes.toList.map (·.2))).toOption =
        some [("Index", ["Node", "Leaf"]), ("Tail", ["Leaf"])] := ⟨_, rfl, by decide +kernel⟩
  cases played : forkedCalls.foldlM Call.perform (start draft true) with
  | error breach =>
    rw [played] at lists
    cases lists
  | ok recording =>
    rw [played] at lists
    have looks : ∀ call ∈ forkedCalls, call.LooksAt forked (.start []) := by
      intro call member
      simp only [forkedCalls, List.mem_cons, List.not_mem_nil, or_false] at member
      rcases member with rfl | rfl | rfl | rfl | rfl | rfl | rfl | rfl | rfl <;> simp [Call.LooksAt]
    exact ⟨draft, recording, started, played, Option.some.inj lists,
      listsReachable_of_perform started (by decide) looks played⟩

end Recording
end FrozenHeap
