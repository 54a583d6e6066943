import FrozenHeap.Proofs.Recording.Listing
import FrozenHeap.Proofs.Recording.Room

/-! What decides about a static field. Whatever was archived before, and in whatever order a walk
goes, a graph is archived exactly if all of it may be, nothing of it has an open copy that a closed
one would refer to, and what has no copy finds room. -/

namespace FrozenHeap

/-- Where the page of a class has an entry at an offset, there can be no other. -/
theorem Ledger.Entered.addEntry {ledger : Ledger} {ofClass : ClassId} {entry : Entry}
    (entered : ledger.Entered ofClass entry.offset) :
    ledger.addEntry ofClass entry = .error .precondition := by
  obtain ⟨page, member, owner, other, listed, same⟩ := entered
  obtain ⟨index, present⟩ := Array.mem_iff_getElem?.mp member
  obtain ⟨inside, here⟩ := Array.getElem?_eq_some_iff.mp present
  have found := indexOf?_eq_some present
  rw [owner] at found
  have twice : ¬ page.entries.all (·.offset != entry.offset) = true := fun all => by
    simpa [same] using Array.all_eq_true'.mp all other listed
  have refused : ledger.pages[index].addEntry entry = .error .precondition := by
    rw [here, Page.addEntry, ensure, if_neg twice]
    rfl
  unfold Ledger.addEntry
  simp only [found, dif_pos inside]
  split
  · rename_i breach broken
    cases broken.symm.trans refused
    rfl
  · rename_i added
    cases added.symm.trans refused

namespace Recording

/-- The objects behind a root that have no copies find room together in a region. -/
def Fits (recording : Recording) (live : Live) (region : Region) (root : ObjectId) : Prop :=
  ∃ objects : List ObjectId, objects.Nodup ∧
    (∀ object, object ∈ objects ↔ live.Reaches root object ∧ object ∉ recording.copies) ∧
    wordBytes * ((recording.draft.image region).words.size + (objects.map live.extent).sum) ≤
      recording.draft.capacity.toNat

/-- Nothing stands in the way of archiving the graph behind a root in a region. -/
structure Archivable (recording : Recording) (live : Live) (screening : Screening) (region : Region)
    (root : ObjectId) : Prop where
  admissible : ∀ object, live.Reaches root object → screening.Admissible live object
  unopened : region = .closed → ∀ (object : ObjectId) (place : Place), live.Reaches root object →
    recording.copies[object]? = some place → place.region = .closed
  fits : recording.Fits live region root

/-- What stands in the way of archiving the graph behind a root, and the failure that says so. -/
inductive Obstructs (recording : Recording) (live : Live) (screening : Screening) (region : Region)
    (root : ObjectId) : Failure → Prop where
  | unfit {object : ObjectId} {seen : Portrait} (path : live.Reaches root object)
      (found : live.portrait? object = some seen)
      (unfit : screening.admits seen.ofClass seen.shape = false) :
      Obstructs recording live screening region root (.unarchivable seen.shape.name)
  | opened {object : ObjectId} {seen : Portrait} {place : Place} (closed : region = .closed)
      (path : live.Reaches root object) (found : live.portrait? object = some seen)
      (known : recording.copies[object]? = some place) (opened : place.region = .opened) :
      Obstructs recording live screening region root (.closedReferencesOpen seen.shape.name)
  | full (full : ¬ recording.Fits live region root) :
      Obstructs recording live screening region root
        (.regionOverflow region recording.draft.capacity)

/-- The objects behind a root that had no copies have them now, in this region, and no others do. -/
structure Gains (before after : Recording) (live : Live) (region : Region) (root : ObjectId) :
    Prop where
  kept : ∀ (object : ObjectId) (place : Place), before.copies[object]? = some place →
    after.copies[object]? = some place
  reached : ∀ object, live.Reaches root object → object ∈ after.copies
  gained : ∀ (object : ObjectId) (place : Place), object ∉ before.copies →
    after.copies[object]? = some place → live.Reaches root object ∧ place.region = region

/-- Whatever has a copy may be archived. -/
def Admits (recording : Recording) (live : Live) (screening : Screening) : Prop :=
  ∀ object ∈ recording.copies, screening.Admissible live object

variable {recording after : Recording} {live : Live} {screening : Screening} {region : Region}
  {root : ObjectId} {round : Round} {tiles : List Tile}

theorem Gains.congr {other : Recording} (gains : recording.Gains after live region root)
    (same : other.copies = after.copies) : recording.Gains other live region root where
  kept := same ▸ gains.kept
  reached := same ▸ gains.reached
  gained := same ▸ gains.gained

private theorem Obstructs.not_archivable {failure : Failure}
    (obstructs : recording.Obstructs live screening region root failure) :
    ¬ recording.Archivable live screening region root := by
  intro archivable
  cases obstructs with
  | unfit path found unfit =>
    obtain ⟨seen, again, fit⟩ := archivable.admissible _ path
    cases found.symm.trans again
    rw [unfit] at fit
    cases fit
  | opened closed path found known opened =>
    rw [archivable.unopened closed _ _ path known] at opened
    cases opened
  | full full => exact full archivable.fits

private theorem fits_of_not_exceeds (closed : live.Closed) (inside : root.index < live.objects.size)
    (less : ¬ recording.Exceeds live region root) : recording.Fits live region root := by
  classical
  have distinct : live.inventory.Nodup := by
    unfold Live.inventory
    exact List.nodup_range.map fun left right different => by simpa using different
  have listed (object : ObjectId) : object ∈ live.inventory.filter (fun object =>
      decide (live.Reaches root object ∧ object ∉ recording.copies)) ↔
      live.Reaches root object ∧ object ∉ recording.copies := by
    rw [List.mem_filter, decide_eq_true_eq, Live.mem_inventory]
    exact ⟨And.right, fun both => ⟨closed.reached inside both.1, both⟩⟩
  refine ⟨_, distinct.filter _, listed, Nat.le_of_not_lt fun exceeds => ?_⟩
  exact less ⟨_, distinct.filter _, fun object => (listed object).mp, exceeds⟩

private theorem Exceeds.not_fits (exceeds : recording.Exceeds live region root) :
    ¬ recording.Fits live region root := by
  rintro ⟨objects, _, listed, fits⟩
  obtain ⟨others, distinct, among, more⟩ := exceeds
  have less := live.sum_extent_le distinct fun object member =>
    (listed object).mpr (among object member)
  unfold wordBytes at *
  omega

end Recording

namespace Walk

open Recording (Obstructs)

variable {live : Live} {screening : Screening} {region : Region} {root : ObjectId} {seen : Seen}
  {walked : Nat} {recording : Recording}

theorem Runs.admissible {stack last : List ObjectId} {walk final : Walk}
    (runs : Runs live screening region stack walk last final)
    (admits : ∀ object ∈ walk.copies, screening.Admissible live object) :
    ∀ object ∈ final.copies, screening.Admissible live object := by
  refine runs.preserves (fun _ walk => ∀ object ∈ walk.copies, screening.Admissible live object) ?_
    admits
  intro _ _ _ _ step admits
  cases step with
  | again => exact admits
  | cached => exact admits
  | laid found _ _ fit =>
    intro object member
    rcases Std.ExtTreeMap.mem_insert.mp member with same | old
    · rw [← Std.LawfulEqOrd.eq_of_compare same]
      exact ⟨_, found, fit⟩
    · exact admits object old

theorem Runs.placed {stack last : List ObjectId} {walk final : Walk} {copies : Copies}
    (runs : Runs live screening region stack walk last final)
    (placed : ∀ (object : ObjectId) (place : Place), walk.copies[object]? = some place →
      copies[object]? = some place ∨ place.region = region) :
    ∀ (object : ObjectId) (place : Place), final.copies[object]? = some place →
      copies[object]? = some place ∨ place.region = region := by
  refine runs.preserves (fun _ walk => ∀ (object : ObjectId) (place : Place),
    walk.copies[object]? = some place → copies[object]? = some place ∨ place.region = region) ?_
      placed
  intro _ _ _ _ step placed
  cases step with
  | again => exact placed
  | cached => exact placed
  | laid _ _ _ _ _ laid =>
    intro object other
    simp only [copy, list, meet, Std.ExtTreeMap.getElem?_insert]
    split
    · intro same
      cases same
      exact .inr (Draft.allocate_ok laid).2.1
    · exact placed object other

private theorem obstructs_of_stop {stack : List ObjectId} {walk after : Walk} {failure : Failure}
    {old fresh : List Tile} (laying : Laying live region recording.draft root old stack walk fresh)
    (runs : Runs live screening region [root]
      (Walk.start recording.draft recording.copies seen walked) stack walk)
    (stop : Stop live screening region stack walk failure after) :
    recording.Obstructs live screening region root failure := by
  have touring := (Touring.start recording.draft recording.copies seen walked).runs runs
    (.start _ _ _ _)
  have reaches {object : ObjectId} (ahead : object ∈ stack) : live.Reaches root object := by
    rcases touring.ahead object ahead with rfl | ⟨holder, met, refers⟩
    · exact .refl
    · exact (touring.visits holder met).reaches.tail refers
  cases stop with
  | barred found barred =>
    obtain ⟨closed, copied⟩ := barred
    obtain ⟨place, known, opened⟩ := Option.map_eq_some_iff.mp copied
    have placed : recording.copies[_]? = some place ∨ place.region = region :=
      runs.placed (fun _ _ known => .inl known) _ place known
    rcases placed with before | here
    · exact .opened closed (reaches List.mem_cons_self) found before opened
    · rw [here, closed] at opened
      cases opened
  | unfit found _ _ unfit => exact .unfit (reaches List.mem_cons_self) found unfit
  | full found _ fresh _ uncached failed =>
    obtain ⟨full, overflow, _⟩ := Draft.allocate_error failed
    rw [overflow, laying.grown.capacity]
    exact .full (exceeds_of_full laying runs found fresh uncached full).not_fits

end Walk

/-- Closed copies refer to closed copies, so that everything behind one of them is closed. -/
theorem Linked.closed_of_reaches {draft : Draft} {copies : Copies} {live : Live} {tiles : List Tile}
    (linked : Linked draft copies live.portrait? tiles) {root object : ObjectId}
    (path : live.Reaches root object) (settled : Settled .closed copies root) :
    Settled .closed copies object := by
  induction path with
  | refl => exact settled
  | tail _ edge ih =>
    obtain ⟨place, known, closed⟩ := ih
    obtain ⟨tile, member, rfl, rfl⟩ := (linked.tiling.copied _ _).mp known
    obtain ⟨seen, found, refers⟩ := edge
    obtain ⟨again, remembered, depicts⟩ := linked.remembered tile member
    cases found.symm.trans remembered
    have target := linked.settled tile member _ (depicts.2 ▸ refers)
    rwa [show tile.region = .closed from closed rfl] at target

namespace Recording

variable {recording after : Recording} {live : Live} {screening : Screening} {region : Region}
  {root : ObjectId} {round : Round} {tiles : List Tile}

namespace Intact

variable (intact : recording.Intact live.classNames live.portrait? tiles)
  (current : recording.current = some round)
include intact current

private theorem admits_copyGraph (admits : recording.Admits live screening)
    {outcome : Outcome Place}
    (done : recording.copyGraph round live screening root region = .ok (outcome, after)) :
    after.Admits live screening := by
  cases outcome with
  | error failure =>
    obtain ⟨walk, failed, rfl⟩ := copyGraph_error done
    rw [Admits, (intact.failed current (fun _ listed => listed) failed).1]
    exact admits
  | ok place =>
    obtain ⟨walk, draft, walked, _, rfl, _⟩ := copyGraph_ok done
    exact (Walk.runs_of_advance_ok walked).admissible admits

/-- A walk that is kept has copied what had no copy, and nothing else. -/
theorem gains_copyGraph {place : Place}
    (done : recording.copyGraph round live screening root region = .ok (.ok place, after)) :
    recording.Gains after live region root := by
  obtain ⟨walk, draft, walked, _, rfl, known⟩ := copyGraph_ok done
  obtain ⟨more, finished, _⟩ := intact.copyGraph current (fun _ listed => listed) done
  rw [remember_self] at finished
  have runs := Walk.runs_of_advance_ok walked
  obtain ⟨log, met⟩ := Walk.log_of_advance walked
  refine ⟨fun _ _ => runs.keeps, fun object path => ?_, fun object later uncopied copied =>
    ⟨?_, ?_⟩⟩
  · induction path with
    | refl => exact mem_copies_iff.mpr ⟨place, known⟩
    | tail _ edge ih => exact finished.linked.mem_of_refers ih edge
  · refine ((met object).mp ?_).reaches
    exact (log.mem_copies.mp (mem_copies_iff.mpr ⟨later, copied⟩)).resolve_left uncopied
  · refine (runs.placed (fun _ _ before => .inl before) object later copied).resolve_left ?_
    exact fun before => uncopied (mem_copies_iff.mpr ⟨later, before⟩)

private theorem archivable_copyGraph (closed : live.Closed)
    (inside : root.index < live.objects.size)
    (admits : recording.Admits live screening) {place : Place}
    (done : recording.copyGraph round live screening root region = .ok (.ok place, after)) :
    recording.Archivable live screening region root := by
  have admissible := intact.admits_copyGraph current admits done
  have gains := intact.gains_copyGraph current done
  obtain ⟨walk, draft, walked, _, rfl, _⟩ := copyGraph_ok done
  obtain ⟨more, finished, _⟩ := intact.copyGraph current (fun _ listed => listed) done
  rw [remember_self] at finished
  have runs := Walk.runs_of_advance_ok walked
  refine ⟨fun object path => admissible object (gains.reached object path), ?_, ?_⟩
  · rintro rfl object before path copied
    obtain ⟨_, _, _, _, settled⟩ := intact.kept current (fun _ listed => listed) walked
    obtain ⟨later, there, lies⟩ := finished.linked.closed_of_reaches path settled
    cases (gains.kept _ _ copied).symm.trans there
    exact lies rfl
  · obtain ⟨_, laid⟩ := Walk.Laying.runs runs ⟨[], intact.laying current root live region⟩
    exact fits_of_not_exceeds closed inside (Walk.not_exceeds_of_done laid
      (fun _ _ => intact.linked.mem_of_refers) (intact.seen round current) walked)

/-- A walk that is given up has copied nothing, and something stood in its way. -/
theorem obstructs_copyGraph {failure : Failure}
    (done : recording.copyGraph round live screening root region = .ok (.error failure, after)) :
    recording.Obstructs live screening region root failure ∧ after.copies = recording.copies := by
  obtain ⟨walk, failed, rfl⟩ := copyGraph_error done
  obtain ⟨last, final, runs, stop⟩ := Walk.runs_of_advance_error failed
  obtain ⟨_, laid⟩ := Walk.Laying.runs runs ⟨[], intact.laying current root live region⟩
  refine ⟨Walk.obstructs_of_stop laid runs stop, ?_⟩
  rw [(intact.failed current (fun _ listed => listed) failed).1]

end Intact

/-- Calls that look at one screening copy what it admits. -/
theorem Admits.perform (intact : recording.Intact live.classNames live.portrait? tiles)
    (admits : recording.Admits live screening) {call : Call} (looks : call.LooksAt live screening)
    (done : call.perform recording = .ok after) : after.Admits live screening := by
  cases call with
  | start other ofClass isPartial =>
    obtain ⟨_, _, done⟩ := bind_eq_ok_iff.mp done
    obtain ⟨shape, _, same⟩ := bind_eq_ok_iff.mp done
    cases same
    exact admits
  | archive other judged ofClass offset region =>
    obtain ⟨rfl, rfl⟩ := looks
    obtain ⟨⟨outcome, later⟩, archived, same⟩ := bind_eq_ok_iff.mp done
    cases same
    cases current : recording.current with
    | none =>
      simp only [archiveStatic, current] at archived
      cases archived
    | some round =>
      cases attempt_of_archiveStatic current archived with
      | missing => exact admits
      | plain => exact admits
      | refused _ copying => exact intact.admits_copyGraph current admits copying
      | differs _ copying => exact intact.admits_copyGraph current admits copying
      | copied _ copying compares =>
        have kept := intact.admits_copyGraph current admits copying
        rw [Intact.compare_ok compares]
        exact kept
  | markPartial =>
    cases done
    unfold Recording.markPartial
    split <;> exact admits
  | finish =>
    obtain ⟨⟨tally, later⟩, ended, same⟩ := bind_eq_ok_iff.mp done
    cases same
    unfold endRound at ended
    split at ended
    · cases ended
    · split at ended
      · cases ended
      · cases ended
        exact admits

theorem Admits.play {settings : Settings} {draft : Draft} {verifies : Bool} {calls : List Call}
    (started : Draft.start settings = .ok draft) (bounded : settings.Bounded)
    (looks : ∀ call ∈ calls, call.LooksAt live screening)
    (played : calls.foldlM Call.perform (start draft verifies) = .ok recording) :
    recording.Listed live ∧ recording.Admits live screening := by
  refine foldlM_preserves (fun recording => recording.Listed live ∧ recording.Admits live screening)
    ?_ ⟨.start started bounded verifies, fun object member => ?_⟩ played
  · intro call member _ _ done both
    obtain ⟨tiles, intact⟩ := both.1.intact
    exact ⟨both.1.perform (looks call member) done, both.2.perform intact (looks call member) done⟩
  · exact absurd member Std.ExtTreeMap.not_mem_empty

/-- How archiving the graph behind a static field has been decided, and what it leaves. -/
structure Decides (recording : Recording) (live : Live) (screening : Screening) (region : Region)
    (root : ObjectId) (outcome : Outcome Entry) (after : Recording) : Prop where
  succeeds_iff : (∃ entry, outcome = .ok entry) ↔ recording.Archivable live screening region root
  gains : ∀ entry, outcome = .ok entry → recording.Gains after live region root
  obstructs : ∀ failure, outcome = .error failure →
    recording.Obstructs live screening region root failure ∧ after.copies = recording.copies

theorem Obstructs.decides {failure : Failure}
    (obstructs : recording.Obstructs live screening region root failure)
    (same : after.copies = recording.copies) :
    recording.Decides live screening region root (.error failure) after where
  succeeds_iff := by
    constructor
    · rintro ⟨_, same⟩
      cases same
    · intro archivable
      exact absurd archivable obstructs.not_archivable
  gains _ same := by cases same
  obstructs _ equal := by
    cases equal
    exact ⟨obstructs, same⟩

theorem Gains.decides (archivable : recording.Archivable live screening region root)
    (gains : recording.Gains after live region root) (entry : Entry) :
    recording.Decides live screening region root (.ok entry) after where
  succeeds_iff := ⟨fun _ => archivable, fun _ => ⟨entry, rfl⟩⟩
  gains _ _ := gains
  obstructs _ same := by cases same

variable {ofClass : ClassId} {offset : UInt32}

/-- Archiving a static field comes to what stands in the way of the graph behind it, or
to its entry. -/
theorem Listed.archiveStatic_cases (listed : recording.Listed live)
    (admits : recording.Admits live screening) (closed : live.Closed)
    (current : recording.current = some round)
    (value : live.static? ofClass offset = some (.ref root)) (region : Region) :
    (∃ failure after, recording.archiveStatic live screening ofClass offset region =
        .ok (.error failure, after) ∧ recording.Obstructs live screening region root failure ∧
        after.copies = recording.copies) ∨
      ∃ middle entry, recording.archiveStatic live screening ofClass offset region =
          middle.enter round entry ∧ entry.offset = offset ∧
        recording.Archivable live screening region root ∧ recording.Gains middle live region root ∧
        (middle.ledger.Entered round.root offset ↔ recording.ledger.Entered round.root offset) := by
  obtain ⟨tiles, intact⟩ := listed.intact
  have inside := closed.static value
  obtain ⟨loaded, present, _⟩ := Option.bind_eq_some_iff.mp value
  have known := (Array.getElem?_eq_some_iff.mp present).1
  simp only [Recording.archiveStatic, current, Live.shapeOf_eq known, value, bind, Except.bind]
  obtain ⟨outcome, walk, walked, _⟩ :=
    (intact.laying current root live region).exists_advance closed inside screening
  cases outcome with
  | error failure =>
    have copying : recording.copyGraph round live screening root region =
        .ok (.error failure, recording.abandon round walk) := by
      simp only [copyGraph, walked]
    have obstructs := intact.obstructs_copyGraph current copying
    refine .inl ⟨failure, recording.abandon round walk, ?_, obstructs⟩
    simp only [Recording.archiveObject, copying, bind, Except.bind, pure, Except.pure]
  | ok _ =>
    obtain ⟨draft, _, keeps, _, place, found, _⟩ :=
      intact.kept current (fun _ listed => listed) walked
    have copying : recording.copyGraph round live screening root region =
        .ok (.ok place, recording.adopt round walk draft) := by
      have found : (recording.adopt round walk draft).copies[root]? = some place := found
      simp only [copyGraph, walked, keeps, found, bind, Except.bind, pure, Except.pure]
    obtain ⟨more, finished, _⟩ := intact.copyGraph current (fun _ listed => listed) copying
    rw [remember_self] at finished
    obtain ⟨totals, compared⟩ := finished.exists_compare found
    obtain ⟨tile, member, _, rfl⟩ := (finished.linked.tiling.copied _ _).mp found
    obtain ⟨narrow, narrowed, _⟩ := finished.linked.tiling.exists_narrow member
    have archivable := intact.archivable_copyGraph current closed inside admits copying
    have gains := intact.gains_copyGraph current copying
    obtain ⟨page, paged, _⟩ := listed.round round current
    have entered := (intact.entered_copyGraph current
      ⟨⟨round, current, rfl⟩, Option.isSome_of_eq_some paged⟩ copying).2
    refine .inr ⟨{ recording.adopt round walk draft with totals := totals },
      .reference offset (tile.place (recording.adopt round walk draft).draft).region narrow,
        ?_, rfl,
      archivable, gains.congr rfl, entered _ _⟩
    simp only [Recording.archiveObject, copying, compared, narrowed, bind, Except.bind]

/-- Archiving a static field that refers to an object succeeds if and only if everything behind it
may be archived, nothing behind it has an open copy that a closed one would refer to, and what has
no copy finds room. If it succeeds, exactly that has been copied; a failure says what stood in the
way. A root that has an entry at the offset may have no other: then what could be archived breaks
the contract. -/
theorem decides_archiveStatic {settings : Settings} {draft : Draft} {verifies : Bool}
    {calls : List Call} (closed : live.Closed) (started : Draft.start settings = .ok draft)
    (bounded : settings.Bounded) (looks : ∀ call ∈ calls, call.LooksAt live screening)
    (played : calls.foldlM Call.perform (start draft verifies) = .ok recording)
    (current : recording.current = some round)
    (value : live.static? ofClass offset = some (.ref root)) (region : Region) :
    (recording.Unrecorded offset ∨ ¬ recording.Archivable live screening region root →
      ∃ outcome after, recording.archiveStatic live screening ofClass offset region =
        .ok (outcome, after) ∧ recording.Decides live screening region root outcome after) ∧
    (¬ recording.Unrecorded offset → recording.Archivable live screening region root →
      recording.archiveStatic live screening ofClass offset region = .error .precondition) := by
  obtain ⟨listed, admits⟩ := Admits.play started bounded looks played
  have unrecorded_iff : recording.Unrecorded offset ↔
      ¬ recording.ledger.Entered round.root offset := by
    rw [← Ledger.free_iff]
    constructor
    · exact fun unrecorded => unrecorded round current
    · intro free other here
      cases current.symm.trans here
      exact free
  rcases listed.archiveStatic_cases admits closed current value region with
    ⟨failure, after, done, obstructs, same⟩ | ⟨middle, entry, done, rfl, archivable, gains, entered⟩
  · refine ⟨fun _ => ⟨_, after, done, obstructs.decides same⟩, fun _ archivable => ?_⟩
    exact absurd archivable obstructs.not_archivable
  · rw [unrecorded_iff, ← entered, done]
    refine ⟨fun open' => ?_, fun recorded _ => ?_⟩
    · have free := Ledger.free_iff.mpr (open'.resolve_right fun stuck => stuck archivable)
      obtain ⟨ledger, added⟩ := free.addEntry
      have gains : recording.Gains { middle with ledger := ledger } live region root :=
        gains.congr rfl
      refine ⟨.ok entry, { middle with ledger := ledger }, ?_, gains.decides archivable entry⟩
      simp only [enter, added, bind, Except.bind, pure, Except.pure]
    · rw [enter, (not_not.mp recorded).addEntry]
      rfl

/-- The first field of one root is archived, and then a round begins for another root. -/
def sharedCalls : List Call :=
  [.start forked ⟨0⟩ false, .archive forked (.start []) ⟨0⟩ 16 .opened, .finish,
    .start forked ⟨1⟩ false]

/-- The field of the other root leads to a leaf that has an open copy. -/
theorem decides_archiveStatic_forked : ∃ draft recording round outcome after,
    Draft.start {} = .ok draft ∧
    sharedCalls.foldlM Call.perform (start draft true) = .ok recording ∧
    recording.current = some round ∧ forked.static? ⟨1⟩ 16 = some (.ref ⟨1⟩) ∧
    recording.archiveStatic forked (.start []) ⟨1⟩ 16 .closed = .ok (outcome, after) ∧
    recording.Decides forked (.start []) .closed ⟨1⟩ outcome after := by
  obtain ⟨draft, started, ran⟩ : ∃ draft, Draft.start {} = .ok draft ∧
      (sharedCalls.foldlM Call.perform (start draft true)).toOption.any (fun recording =>
        recording.current.isSome && recording.current.all (·.root == ⟨1⟩) &&
          recording.ledger.pages.all fun page => page.ofClass != ⟨1⟩ || page.entries.isEmpty) =
            true :=
    ⟨_, rfl, by decide +kernel⟩
  obtain ⟨recording, played, checked⟩ := any_toOption_iff.mp ran
  simp only [Bool.and_eq_true, Option.isSome_iff_exists] at checked
  obtain ⟨⟨⟨round, current⟩, rooted⟩, empty⟩ := checked
  have unrecorded : recording.Unrecorded 16 := by
    intro other here page member owner entry listed
    rw [here] at rooted
    have blank := Array.all_eq_true'.mp empty page member
    rw [owner] at blank
    have root : other.root = ⟨1⟩ := by simpa using rooted
    have blank : page.entries = #[] := by simpa [root] using blank
    rw [blank] at listed
    exact absurd listed (Array.not_mem_empty entry)
  have looks : ∀ call ∈ sharedCalls, call.LooksAt forked (.start []) := by
    intro call member
    simp only [sharedCalls, List.mem_cons, List.not_mem_nil, or_false] at member
    rcases member with rfl | rfl | rfl | rfl <;> simp [Call.LooksAt]
  have closed : forked.Closed := Live.closed_of_targets (by decide +kernel) (by decide +kernel)
  have value : forked.static? ⟨1⟩ 16 = some (.ref ⟨1⟩) := by decide
  obtain ⟨outcome, after, done, decides⟩ :=
    (decides_archiveStatic closed started (by decide) looks played current value .closed).1
      (.inl unrecorded)
  exact ⟨draft, recording, round, outcome, after, started, played, current, value, done, decides⟩

/-- A round for the class of the ring, in which its first field is archived. -/
def roundCalls : List Call :=
  [.start .ring ⟨0⟩ false, .archive .ring (.start []) ⟨0⟩ 16 .opened]

/-- The graph behind a field could be archived again, but the field has its entry. -/
theorem precondition_of_archiveStatic_twice : ∃ draft recording, Draft.start {} = .ok draft ∧
    roundCalls.foldlM Call.perform (start draft true) = .ok recording ∧
    (∀ call ∈ roundCalls, call.LooksAt .ring (.start [])) ∧ Live.ring.Closed ∧
    Live.ring.static? ⟨0⟩ 16 = some (.ref ⟨0⟩) ∧
    recording.Archivable .ring (.start []) .opened ⟨0⟩ ∧
    recording.archiveStatic .ring (.start []) ⟨0⟩ 16 .opened = .error .precondition ∧
    ¬ ((∃ entry after, recording.archiveStatic .ring (.start []) ⟨0⟩ 16 .opened =
        .ok (.ok entry, after)) ↔ recording.Archivable .ring (.start []) .opened ⟨0⟩) := by
  obtain ⟨draft, started, ran⟩ : ∃ draft, Draft.start {} = .ok draft ∧
      (roundCalls.foldlM Call.perform (start draft true)).toOption.any (fun recording =>
        recording.copies.contains ⟨0⟩ && recording.copies.contains ⟨1⟩ &&
          decide (wordBytes * recording.draft.opened.words.size ≤ recording.draft.capacity.toNat) &&
          decide ((recording.archiveStatic .ring (.start []) ⟨0⟩ 16 .opened).map (fun _ => ()) =
            .error .precondition)) = true :=
    ⟨_, rfl, by decide +kernel⟩
  obtain ⟨recording, played, checked⟩ := any_toOption_iff.mp ran
  simp only [Bool.and_eq_true, decide_eq_true_eq] at checked
  obtain ⟨⟨⟨first, second⟩, room⟩, twice⟩ := checked
  have looks : ∀ call ∈ roundCalls, call.LooksAt .ring (.start []) := by
    intro call member
    simp only [roundCalls, List.mem_cons, List.not_mem_nil, or_false] at member
    rcases member with rfl | rfl <;> simp [Call.LooksAt]
  -- The ring has two objects, and both of them have copies.
  have both (object : ObjectId) (path : Live.ring.Reaches ⟨0⟩ object) :
      object = ⟨0⟩ ∨ object = ⟨1⟩ := by
    obtain ⟨index⟩ := object
    have inside : index < 2 := Live.closed_ring.reached (by decide) path
    rcases (by omega : index = 0 ∨ index = 1) with rfl | rfl
    · exact .inl rfl
    · exact .inr rfl
  have archivable : recording.Archivable .ring (.start []) .opened ⟨0⟩ := by
    refine ⟨fun object path => ?_, fun impossible => (by cases impossible), [], List.nodup_nil,
      ?_, ?_⟩
    · rcases both object path with rfl | rfl <;> exact ⟨_, rfl, by decide⟩
    · intro object
      refine ⟨fun member => (by cases member), fun uncopied => ?_⟩
      obtain ⟨path, uncopied⟩ := uncopied
      rcases both object path with rfl | rfl
      · exact absurd first (by simpa using uncopied)
      · exact absurd second (by simpa using uncopied)
    · exact room
  have broken :
      recording.archiveStatic .ring (.start []) ⟨0⟩ 16 .opened = .error .precondition := by
    cases ran : recording.archiveStatic .ring (.start []) ⟨0⟩ 16 .opened with
    | ok _ =>
      rw [ran] at twice
      cases twice
    | error breach =>
      rw [ran] at twice
      cases twice
      rfl
  refine ⟨draft, recording, started, played, looks, Live.closed_ring, by decide, archivable,
    broken, ?_⟩
  intro same
  obtain ⟨entry, after, done⟩ := same.mpr archivable
  cases broken.symm.trans done

end Recording
end FrozenHeap
