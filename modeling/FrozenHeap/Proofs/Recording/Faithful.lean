import FrozenHeap.Proofs.Ledger
import FrozenHeap.Proofs.Recording.Mirror

/-! Recordings of a heap that does not change. Archiving a field always has an outcome, which is
never that a copy differs from its object, and the copies mirror the objects that have one. -/

namespace FrozenHeap

/-- A failure says that a copy differs from its object. -/
def Failure.isMismatch : Failure → Bool
  | .verificationFailed .. => true
  | _ => false

namespace Walk

variable {live : Live} {screening : Screening} {region : Region}

theorem Stop.not_isMismatch {stack : List ObjectId} {walk after : Walk} {failure : Failure}
    (stop : Stop live screening region stack walk failure after) :
    failure.isMismatch = false := by
  cases stop with
  | barred => rfl
  | unfit => rfl
  | full _ _ _ _ _ full =>
    rw [(Draft.allocate_error full).2.1]
    rfl

theorem Step.inside (closed : live.Closed) {stack middle : List ObjectId} {walk later : Walk}
    (step : Step live screening region stack walk middle later)
    (exist : ∀ object ∈ stack, object.index < live.objects.size) :
    ∀ object ∈ middle, object.index < live.objects.size := by
  intro object member
  cases step with
  | again => exact exist object (List.mem_cons_of_mem _ member)
  | cached found =>
    rcases List.mem_append.mp member with target | behind
    · exact closed.target found (mem_targetsOf.mp target)
    · exact exist object (List.mem_cons_of_mem _ behind)
  | laid found =>
    rcases List.mem_append.mp member with target | behind
    · exact closed.target found (mem_targetsOf.mp target)
    · exact exist object (List.mem_cons_of_mem _ behind)

/-- A walk through a heap without dangling references has an outcome. -/
theorem Laying.exists_advance (closed : live.Closed) {before : Draft} {root : ObjectId}
    {old fresh : List Tile} {walk : Walk}
    (laying : Laying live region before root old [root] walk fresh)
    (exists_ : root.index < live.objects.size) (screening : Screening) :
    ∃ outcome after, advance live screening region [root] walk = .ok (outcome, after) ∧
      ∀ failure, outcome = .error failure → failure.isMismatch = false := by
  obtain ⟨last, final, runs, ends⟩ := exists_runs live screening region [root] walk
  obtain ⟨_, laid⟩ := Laying.runs runs ⟨fresh, laying⟩
  have inside := runs.preserves (fun stack _ => ∀ object ∈ stack, object.index < live.objects.size)
    (fun _ _ _ _ step => step.inside closed) fun object member => by
      rw [List.mem_singleton.mp member]
      exact exists_
  generalize advance live screening region [root] walk = result at ends
  cases ends with
  | done => exact ⟨_, _, rfl, fun failure same => by cases same⟩
  | stopped stop =>
    refine ⟨_, _, rfl, fun failure same => ?_⟩
    cases same
    exact stop.not_isMismatch
  | broken breaks =>
    cases breaks with
    | missing missing => exact absurd (inside _ List.mem_cons_self) missing
    | address _ broken =>
      rw [laid.tiling.framed.allocate_eq] at broken
      split at broken <;> cases broken

end Walk

/-- Remembering a heap that did not change is looking at it. -/
@[simp] theorem remember_self (copies : Copies) (live : Live) :
    remember copies live.portrait? live = live.portrait? := by
  funext object
  exact ite_self _

namespace Recording

variable {live : Live} {screening : Screening} {recording : Recording} {tiles : List Tile}
  {round : Round} {root : ObjectId} {region : Region}

/-- No entry has been recorded at an offset for the root in progress. -/
def Unrecorded (recording : Recording) (offset : UInt32) : Prop :=
  ∀ round, recording.current = some round → recording.ledger.Free round.root offset

private theorem enter_ok (entry : Entry) (free : recording.ledger.Free round.root entry.offset) :
    ∃ after, recording.enter round entry = .ok (.ok entry, after) := by
  obtain ⟨ledger, added⟩ := free.addEntry
  exact ⟨{ recording with ledger := ledger }, by simp [enter, added, bind, Except.bind, pure,
    Except.pure]⟩

namespace Intact

/-- Copying the graph behind an object that exists has an outcome, and leaves room for the entry. -/
theorem exists_copyGraph (closed : live.Closed)
    (intact : recording.Intact live.classNames live.portrait? tiles)
    (current : recording.current = some round) (inside : root.index < live.objects.size)
    {offset : UInt32} (free : recording.ledger.Free round.root offset) (screening : Screening)
    (region : Region) :
    ∃ outcome after, recording.copyGraph round live screening root region = .ok (outcome, after) ∧
      (∀ failure, outcome = .error failure → failure.isMismatch = false) ∧
      after.ledger.Free round.root offset := by
  have laying := intact.laying current root live region
  obtain ⟨outcome, walk, walked, sound⟩ := laying.exists_advance closed inside screening
  cases outcome with
  | error failure =>
    refine ⟨.error failure, recording.abandon round walk, ?_, ?_, free⟩
    · simp only [Recording.copyGraph, walked]
    · intro other same
      cases same
      exact sound failure rfl
  | ok _ =>
    obtain ⟨draft, more, keeps, _, place, found, _⟩ :=
      intact.kept current (fun _ listed => listed) walked
    have found : (recording.adopt round walk draft).copies[root]? = some place := found
    refine ⟨.ok place, recording.adopt round walk draft, ?_, fun failure same => (by cases same),
      free.addClasses _ _⟩
    simp only [Recording.copyGraph, walked, keeps, found, bind, Except.bind, pure, Except.pure]

/-- There are no more class names than classes, so that headers can number them. -/
theorem few (intact : recording.Intact live.classNames live.portrait? tiles) :
    recording.draft.names.size ≤ UInt32.size := by
  refine Nat.le_trans intact.named.size_le ?_
  rw [Live.classNames, List.length_map, Array.length_toList]
  exact live.numbered

/-- Finished copies of a heap that did not change compare well with it. -/
theorem exists_compare (intact : recording.Intact live.classNames live.portrait? tiles)
    {place : Place} (known : recording.copies[root]? = some place) :
    ∃ totals, recording.compare live root place =
      .ok (.ok { recording with totals := totals }) := by
  unfold Recording.compare
  split
  · rw [Draft.verify_ok intact.linked intact.few known]
    exact ⟨_, rfl⟩
  · exact ⟨recording.totals, rfl⟩

private theorem exists_archiveObject (closed : live.Closed)
    (intact : recording.Intact live.classNames live.portrait? tiles)
    (current : recording.current = some round) (inside : root.index < live.objects.size)
    {offset : UInt32} (free : recording.ledger.Free round.root offset) (screening : Screening)
    (region : Region) :
    ∃ outcome after,
      recording.archiveObject round live screening root offset region = .ok (outcome, after) ∧
      ∀ failure, outcome = .error failure → failure.isMismatch = false := by
  obtain ⟨copied, middle, copying, sound, kept⟩ :=
    intact.exists_copyGraph closed current inside free screening region
  obtain ⟨more, finished, known⟩ := intact.copyGraph current (fun _ listed => listed) copying
  cases copied with
  | error failure =>
    refine ⟨.error failure, middle, ?_, fun other same => sound other (by simpa using same)⟩
    simp only [Recording.archiveObject, copying, bind, Except.bind, pure, Except.pure]
  | ok place =>
    rw [remember_self] at finished
    obtain ⟨totals, compared⟩ := finished.exists_compare (known place rfl)
    obtain ⟨tile, member, _, same⟩ := (finished.linked.tiling.copied _ _).mp (known place rfl)
    obtain ⟨narrow, narrowed, _⟩ := finished.linked.tiling.exists_narrow member
    rw [same] at narrowed
    have free : { middle with totals := totals }.ledger.Free round.root offset := kept
    obtain ⟨after, entered⟩ := enter_ok (.reference offset place.region narrow) free
    refine ⟨.ok (.reference offset place.region narrow), after, ?_, nofun⟩
    simp only [Recording.archiveObject, copying, compared, narrowed, bind, Except.bind]
    exact entered

/-- Archiving a static field of a class that exists, under a root that has no entry there yet, has
an outcome. -/
theorem exists_archiveStatic (closed : live.Closed)
    (intact : recording.Intact live.classNames live.portrait? tiles)
    (current : recording.current = some round) {ofClass : ClassId}
    (loaded : ofClass.index < live.classes.size) {offset : UInt32}
    (free : recording.ledger.Free round.root offset) (screening : Screening) (region : Region) :
    ∃ outcome after,
      recording.archiveStatic live screening ofClass offset region = .ok (outcome, after) ∧
      ∀ failure, outcome = .error failure → failure.isMismatch = false := by
  simp only [Recording.archiveStatic, current, Live.shapeOf_eq loaded, bind, Except.bind]
  cases value : live.static? ofClass offset with
  | none => exact ⟨_, _, rfl, fun failure same => by cases same; rfl⟩
  | some slot =>
    cases slot with
    | bits word =>
      obtain ⟨after, entered⟩ := enter_ok (.primitive offset word) free
      exact ⟨_, after, entered, fun failure same => by cases same⟩
    | null =>
      obtain ⟨after, entered⟩ := enter_ok (.reference offset region 0) free
      exact ⟨_, after, entered, fun failure same => by cases same⟩
    | ref root =>
      exact intact.exists_archiveObject closed current (closed.static value) free screening region

end Intact

/-- The states of a recording of a heap that does not change, under a screening that does not
change. Between its calls, each offset is recorded once under a root at most. -/
inductive Reached (live : Live) (screening : Screening) (draft : Draft) (verifies : Bool) :
    Recording → Prop where
  | start : Reached live screening draft verifies (.start draft verifies)
  | startRound {recording after : Recording} {root : ClassId} {isPartial : Bool}
      (reached : Reached live screening draft verifies recording)
      (done : recording.startRound live root isPartial = .ok after) :
      Reached live screening draft verifies after
  | archiveStatic {recording after : Recording} {ofClass : ClassId} {offset : UInt32}
      {region : Region} {outcome : Outcome Entry}
      (reached : Reached live screening draft verifies recording)
      (unrecorded : recording.Unrecorded offset)
      (done : recording.archiveStatic live screening ofClass offset region =
        .ok (outcome, after)) :
      Reached live screening draft verifies after
  | markPartial {recording : Recording}
      (reached : Reached live screening draft verifies recording) :
      Reached live screening draft verifies recording.markPartial
  | endRound {recording after : Recording} {tally : Tally}
      (reached : Reached live screening draft verifies recording)
      (done : recording.endRound = .ok (tally, after)) :
      Reached live screening draft verifies after

theorem Reached.intact {settings : Settings} {draft : Draft} {verifies : Bool}
    (reached : Reached live screening draft verifies recording)
    (started : Draft.start settings = .ok draft) (bounded : settings.Bounded) :
    ∃ tiles, recording.Intact live.classNames live.portrait? tiles := by
  induction reached with
  | start => exact ⟨[], .start started bounded verifies⟩
  | startRound _ done ih =>
    obtain ⟨tiles, intact⟩ := ih
    exact ⟨tiles, intact.startRound done⟩
  | archiveStatic _ _ done ih =>
    obtain ⟨tiles, intact⟩ := ih
    obtain ⟨more, finished⟩ := intact.archiveStatic (fun _ listed => listed) done
    rw [remember_self] at finished
    exact ⟨tiles ++ more, finished⟩
  | markPartial _ ih =>
    obtain ⟨tiles, intact⟩ := ih
    exact ⟨tiles, intact.markPartial⟩
  | endRound _ done ih =>
    obtain ⟨tiles, intact⟩ := ih
    exact ⟨tiles, intact.endRound done⟩

/-- The copies are an isomorphic image of the objects that have one: different objects have
different copies, and a copy, read from the draft, mirrors its object, whose references
lead to copies. -/
structure Faithful (live : Live) (recording : Recording) : Prop where
  injective : ∀ (object other : ObjectId) (place : Place), recording.copies[object]? = some place →
    recording.copies[other]? = some place → object = other
  closed : ∀ object target, object ∈ recording.copies → live.Refers object target →
    target ∈ recording.copies
  mirrors : ∀ (object : ObjectId) (place : Place), recording.copies[object]? = some place →
    ∃ seen copy, live.portrait? object = some seen ∧
      recording.draft.copyAt? place = .ok (some copy) ∧
      copy.Mirrors recording.draft recording.copies seen

theorem Intact.isFaithful (intact : recording.Intact live.classNames live.portrait? tiles) :
    recording.Faithful live where
  injective _ _ _ := intact.linked.injective
  closed _ _ := intact.linked.mem_of_refers
  mirrors _ _ known := intact.linked.exists_copy intact.few known

/-- On a heap without dangling references that does not change, every call leaves faithful copies,
and archiving a static field succeeds or fails for a cause of the domain, but neither breaks a
contract nor finds a copy that differs from its object. -/
theorem Reached.faithful {settings : Settings} {draft : Draft} {verifies : Bool}
    (reached : Reached live screening draft verifies recording) (closed : live.Closed)
    (started : Draft.start settings = .ok draft) (bounded : settings.Bounded) :
    recording.Faithful live ∧
      ∀ round ofClass offset region, recording.current = some round →
        ofClass.index < live.classes.size → recording.Unrecorded offset →
        ∃ outcome after,
          recording.archiveStatic live screening ofClass offset region = .ok (outcome, after) ∧
          (∀ failure, outcome = .error failure → failure.isMismatch = false) ∧
          after.Faithful live := by
  obtain ⟨tiles, intact⟩ := reached.intact started bounded
  refine ⟨intact.isFaithful, ?_⟩
  intro round ofClass offset region current loaded unrecorded
  obtain ⟨outcome, after, done, sound⟩ := intact.exists_archiveStatic closed current loaded
    (unrecorded round current) screening region
  obtain ⟨tiles, finished⟩ := (reached.archiveStatic unrecorded done).intact started bounded
  exact ⟨outcome, after, done, sound, finished.isFaithful⟩

/-- The ring is copied whole, and its copies are faithful. -/
theorem faithful_ring : ∃ draft recording entry after, Draft.start {} = .ok draft ∧
    Reached .ring (.start []) draft true recording ∧
    recording.archiveStatic .ring (.start []) ⟨0⟩ 16 .closed = .ok (.ok entry, after) ∧
    ⟨0⟩ ∈ after.copies ∧ ⟨1⟩ ∈ after.copies ∧ after.Faithful .ring := by
  obtain ⟨draft, started⟩ : ∃ draft, Draft.start {} = .ok draft := ⟨_, rfl⟩
  have bounded : Settings.Bounded {} := by decide
  obtain ⟨recording, begun, ran⟩ : ∃ recording,
      (Recording.start draft true).startRound .ring ⟨0⟩ false = .ok recording ∧
      (recording.archiveStatic .ring (.start []) ⟨0⟩ 16 .closed).toOption.any (fun result =>
        result.1.toOption.isSome && decide (⟨0⟩ ∈ result.2.copies ∧ ⟨1⟩ ∈ result.2.copies)) =
          true := by
    cases started
    exact ⟨_, rfl, by decide +kernel⟩
  have reached : Reached .ring (.start []) draft true recording := .startRound .start begun
  have current : recording.current = some ⟨⟨0⟩, ∅, {}⟩ := by
    cases begun
    rfl
  have unrecorded : recording.Unrecorded 16 := by
    cases begun
    intro _ _ page member _ entry listed
    rcases Ledger.mem_enter member with old | rfl
    · exact absurd old (Array.not_mem_empty page)
    · exact absurd listed (Array.not_mem_empty entry)
  obtain ⟨outcome, after, done, _, faithful⟩ :=
    (reached.faithful Live.closed_ring started bounded).2 _ ⟨0⟩ 16 .closed current (by decide)
      unrecorded
  rw [done] at ran
  obtain ⟨succeeds, copied⟩ := Bool.and_eq_true_iff.mp ran
  obtain ⟨first, second⟩ := of_decide_eq_true copied
  cases outcome with
  | error failure => cases succeeds
  | ok entry =>
    exact ⟨draft, recording, entry, after, started, reached, done, first, second, faithful⟩

end Recording
end FrozenHeap
