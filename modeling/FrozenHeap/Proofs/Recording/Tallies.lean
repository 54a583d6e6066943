import FrozenHeap.Proofs.Recording.Counts
import FrozenHeap.Proofs.Recording.Intact
import Mathlib.Data.Finset.Card

/-! What the counts of a recording say. Copies and classes are counted when they are kept, so these
counts are right whichever walks fail. Objects are counted when they are visited, and a walk that is
given up takes back what it saw but not what it counted: an object that it visited counts again when
it is visited again. -/

namespace FrozenHeap

/-- A call to archive a static field, with the live heap and the screening as they are by then. -/
structure FieldCall where
  live : Live
  screening : Screening
  ofClass : ClassId
  offset : UInt32
  region : Region

/-- What a walk visited for the first time in its recording, in walk order. A walk that did not
finish was given up. -/
structure Trip where
  visited : List ObjectId
  finished : Bool
  deriving DecidableEq

def Trip.ofWalk (outcome : Outcome Unit) (walk : Walk) : Trip := ⟨walk.met.toList, outcome.isOk⟩

private theorem Page.prefix_foldl_addClass (met : List (ClassId × String)) (page : Page) :
    page.classes.toList <+: (met.foldl (·.addClass ·) page).classes.toList := by
  induction met generalizing page with
  | nil => exact List.prefix_refl _
  | cons head rest ih =>
    refine List.IsPrefix.trans ?_ (ih (page.addClass head))
    unfold addClass
    split
    · exact List.prefix_refl _
    · rw [Array.toList_push]
      exact List.prefix_append _ _

namespace Ledger

def listed (ledger : Ledger) (ofClass : ClassId) : List (ClassId × String) :=
  ((ledger.page? ofClass).map (·.classes.toList)).getD []

variable {ledger : Ledger} {ofClass other : ClassId}

private theorem length_listed : (ledger.listed ofClass).length = ledger.classCount ofClass := by
  unfold listed classCount
  cases ledger.page? ofClass with
  | none => rfl
  | some page => exact Array.length_toList

/-- A change that leaves the classes of a page alone leaves those of all pages alone. -/
theorem listed_modify {change : Page → Page} {keeps : ∀ page, (change page).ofClass = page.ofClass}
    (same : ∀ page, (change page).classes = page.classes) :
    (ledger.modify ofClass change keeps).listed other = ledger.listed other := by
  unfold listed
  rw [page?_modify]
  split
  · rename_i here
    rw [here, Option.map_map]
    congr 2
    funext page
    exact congrArg Array.toList (same page)
  · rfl

theorem listed_enter {name : String} {isPartial : Bool} :
    (ledger.enter ofClass name isPartial).listed other = ledger.listed other := by
  unfold enter
  split
  · rfl
  · simp only [listed, page?, Array.find?_push]
    cases ledger.pages.find? (·.ofClass == other) with
    | some page => rfl
    | none =>
      rw [Option.none_or]
      split <;> rfl

private theorem listed_markPartial : (ledger.markPartial ofClass).listed other =
    ledger.listed other :=
  listed_modify fun _ => rfl

private theorem listed_addEntry {entry : Entry} {after : Ledger}
    (done : ledger.addEntry ofClass entry = .ok after) :
    after.listed other = ledger.listed other := by
  rw [addEntry_ok done]
  exact listed_modify fun _ => rfl

private theorem prefix_addClasses (met : List (ClassId × String)) :
    ledger.listed ofClass <+: (ledger.addClasses ofClass met).listed ofClass := by
  unfold listed
  rw [addClasses, page?_modify, if_pos rfl]
  cases ledger.page? ofClass with
  | none => exact List.prefix_refl _
  | some page => exact page.prefix_foldl_addClass met

end Ledger

namespace Walk

variable {live : Live} {screening : Screening} {region : Region} {root : ObjectId} {draft : Draft}
  {copies : Copies} {seen : Seen}

private theorem size_copies_of_advance {walked : Nat} {after : Walk}
    (done : advance live screening region [root] (Walk.start draft copies seen walked) =
      .ok (.ok (), after)) : after.copies.size = copies.size + after.copied.size := by
  refine (runs_of_advance_ok done).preserves
    (fun _ walk => walk.copies.size = copies.size + walk.copied.size) ?_ rfl
  intro _ earlier _ _ step sized
  cases step with
  | again => exact sized
  | cached => exact sized
  | @laid object _ _ _ place _ _ _ _ _ uncached =>
    have absent : ¬ earlier.copies.contains object = true := fun known => by
      rw [Std.ExtTreeMap.contains_eq_isSome_getElem?, uncached] at known
      cases known
    show (earlier.copies.insert object place).size = copies.size + (earlier.copied.push object).size
    rw [Std.ExtTreeMap.size_insert, if_neg absent, Array.size_push, sized, Nat.add_assoc]

private theorem undoable_of_advance {walked : Nat} {outcome : Outcome Unit} {after : Walk}
    (done : advance live screening region [root] (Walk.start draft copies seen walked) =
      .ok (outcome, after)) : Undoable copies seen after := by
  have start := Undoable.start draft copies seen walked
  cases outcome with
  | ok => exact start.runs (runs_of_advance_ok done)
  | error failure =>
    obtain ⟨_, _, runs, stop⟩ := runs_of_advance_error done
    exact (start.runs runs).stop stop

/-- A walk counts its visits. They are visits of distinct objects, none of which was seen before. -/
theorem trip_of_advance {walked : Nat} {outcome : Outcome Unit} {after : Walk}
    (done : advance live screening region [root] (Walk.start draft copies seen walked) =
      .ok (outcome, after)) :
    after.walked = walked + (Trip.ofWalk outcome after).visited.length ∧
      (Trip.ofWalk outcome after).visited.Nodup ∧
      ∀ object ∈ (Trip.ofWalk outcome after).visited, seen.contains object = false := by
  have counted := counted_of_advance done
  refine ⟨?_, counted.distinct, fun object visited => ?_⟩
  · rw [counted.walked, Trip.ofWalk, Array.length_toList]
  · exact (undoable_of_advance done).met object (Array.mem_toList_iff.mp visited)

end Walk

namespace Recording

/-- The trip on which a call takes a recording, if it walks at all. -/
def trip? (recording : Recording) (call : FieldCall) : Option Trip :=
  match recording.current, call.live.static? call.ofClass call.offset with
  | some round, some (.ref root) =>
    match Walk.advance call.live call.screening call.region [root]
        (Walk.start recording.draft recording.copies round.seen round.tally.walked) with
    | .ok (outcome, walk) => some (.ofWalk outcome walk)
    | .error _ => none
  | _, _ => none

/-- Answer calls one after the other, and note their trips. -/
def travel (recording : Recording) : List FieldCall → Run (List Trip × Recording)
  | [] => .ok ([], recording)
  | call :: later => do
    let (_, next) ← recording.archiveStatic call.live call.screening call.ofClass call.offset
      call.region
    let (trips, last) ← next.travel later
    return ((recording.trip? call).toList ++ trips, last)

/-- What trips have made of a recording and of its round. -/
structure Toured (before : Recording) (first : Round) (trips : List Trip) (after : Recording)
    (round : Round) : Prop where
  current : after.current = some round
  root : round.root = first.root
  /-- All visits count. -/
  walked : round.tally.walked = first.tally.walked + (trips.flatMap Trip.visited).length
  distinct : ∀ trip ∈ trips, trip.visited.Nodup
  fresh : ∀ trip ∈ trips, ∀ object ∈ trip.visited, first.seen.contains object = false
  /-- What was visited on a finished trip is remembered. -/
  seen : ∀ object, round.seen.contains object = true ↔ first.seen.contains object = true ∨
    ∃ trip ∈ trips, trip.finished = true ∧ object ∈ trip.visited
  apart : trips.Pairwise fun earlier later =>
    earlier.finished = true → earlier.visited.Disjoint later.visited
  kept : ∀ (object : ObjectId) (place : Place), before.copies[object]? = some place →
    after.copies[object]? = some place
  archived : after.copies.size + first.tally.archived = before.copies.size + round.tally.archived
  listed : before.ledger.listed first.root <+: after.ledger.listed first.root
  recordedClasses : (after.ledger.listed first.root).length + first.tally.recordedClasses =
    (before.ledger.listed first.root).length + round.tally.recordedClasses

namespace Toured

variable {before middle after : Recording} {first between round : Round} {trips more : List Trip}

theorem refl (current : before.current = some first) : before.Toured first [] before first where
  current := current
  root := rfl
  walked := rfl
  distinct _ member := absurd member List.not_mem_nil
  fresh _ member := absurd member List.not_mem_nil
  seen _ := by simp
  apart := .nil
  kept _ _ found := found
  archived := rfl
  listed := List.prefix_refl _
  recordedClasses := rfl

theorem trans (toured : before.Toured first trips middle between)
    (onward : middle.Toured between more after round) :
    before.Toured first (trips ++ more) after round where
  current := onward.current
  root := onward.root.trans toured.root
  walked := by
    rw [onward.walked, toured.walked, List.flatMap_append, List.length_append, Nat.add_assoc]
  distinct trip member := (List.mem_append.mp member).elim (toured.distinct trip)
    (onward.distinct trip)
  fresh trip member object visited := by
    rcases List.mem_append.mp member with earlier | later
    · exact toured.fresh trip earlier object visited
    · refine Bool.eq_false_iff.mpr fun known => ?_
      have still := (toured.seen object).mpr (.inl known)
      rw [onward.fresh trip later object visited] at still
      cases still
  seen object := by
    rw [onward.seen, toured.seen]
    simp only [List.mem_append, or_and_right, exists_or, or_assoc]
  apart := by
    refine List.pairwise_append.mpr ⟨toured.apart, onward.apart, ?_⟩
    -- What a finished trip visited is remembered by the time of the later one.
    intro earlier member later behind finished object visited again
    have known := (toured.seen object).mpr (.inr ⟨earlier, member, finished, visited⟩)
    rw [onward.fresh later behind object again] at known
    cases known
  kept object place found := onward.kept object place (toured.kept object place found)
  archived := by
    have one := toured.archived
    have two := onward.archived
    omega
  listed := by
    have two := onward.listed
    rw [toured.root] at two
    exact toured.listed.trans two
  recordedClasses := by
    have one := toured.recordedClasses
    have two := onward.recordedClasses
    rw [toured.root] at two
    omega

/-- It does not matter what is entered, compared or laid out besides. -/
theorem congr (toured : before.Toured first trips middle round)
    (current : after.current = middle.current) (copies : after.copies = middle.copies)
    (listed : after.ledger.listed first.root = middle.ledger.listed first.root) :
    before.Toured first trips after round where
  current := current.trans toured.current
  root := toured.root
  walked := toured.walked
  distinct := toured.distinct
  fresh := toured.fresh
  seen := toured.seen
  apart := toured.apart
  kept object place found := by
    rw [copies]
    exact toured.kept object place found
  archived := by
    rw [copies]
    exact toured.archived
  listed := by
    rw [listed]
    exact toured.listed
  recordedClasses := by
    rw [listed]
    exact toured.recordedClasses

variable {live : Live} {screening : Screening} {region : Region} {root : ObjectId}

/-- A walk that is given up leaves nothing but its count of visits. -/
theorem abandon {failure : Failure} {walk : Walk}
    (failed : Walk.advance live screening region [root]
      (Walk.start before.draft before.copies first.seen first.tally.walked) =
        .ok (.error failure, walk)) :
    before.Toured first [.ofWalk (.error failure) walk] (before.abandon first walk)
      { first with tally := { first.tally with walked := walk.walked } } := by
  obtain ⟨walked, distinct, fresh⟩ := Walk.trip_of_advance failed
  have undoable := Walk.undoable_of_advance failed
  have copies : (before.abandon first walk).copies = before.copies := undoable.erase_copied
  exact {
    current := by rw [Recording.abandon, undoable.erase_met]
    root := rfl
    walked := by rw [List.flatMap_singleton, ← walked]
    distinct := List.forall_mem_singleton.mpr distinct
    fresh := List.forall_mem_singleton.mpr fresh
    seen := fun _ => by simp [Trip.ofWalk, Except.isOk, Except.toBool]
    apart := List.pairwise_singleton _ _
    kept := by simp only [copies, imp_self, implies_true]
    archived := by rw [copies]
    listed := List.prefix_refl _
    recordedClasses := rfl }

/-- A walk that finishes counts what it visited, copied and listed. -/
theorem adopt {walk : Walk} (draft : Draft)
    (done : Walk.advance live screening region [root]
      (Walk.start before.draft before.copies first.seen first.tally.walked) =
        .ok (.ok (), walk)) :
    ∃ round, before.Toured first [.ofWalk (.ok ()) walk] (before.adopt first walk draft) round := by
  obtain ⟨walked, distinct, fresh⟩ := Walk.trip_of_advance done
  obtain ⟨log, _⟩ := Walk.log_of_advance done
  have seen (object : ObjectId) : walk.seen.contains object = true ↔
      first.seen.contains object = true ∨ object ∈ walk.met := by
    by_cases member : object ∈ walk.met
    · simp only [log.marked object member, member, or_true]
    · rw [log.undoable.old object member, or_iff_left member]
  have listed : before.ledger.listed first.root <+:
      (before.ledger.addClasses first.root walk.classes.toList).listed first.root :=
    Ledger.prefix_addClasses _
  refine ⟨_, {
    current := rfl
    root := rfl
    walked := by rw [List.flatMap_singleton, ← walked]
    distinct := List.forall_mem_singleton.mpr distinct
    fresh := List.forall_mem_singleton.mpr fresh
    seen := fun object => by simpa [Trip.ofWalk, Except.isOk, Except.toBool] using seen object
    apart := List.pairwise_singleton _ _
    kept := fun object place found => ?_
    archived := ?_
    listed := listed
    recordedClasses := ?_ }⟩
  · refine (log.undoable.kept object fun copied => ?_).trans found
    rw [log.undoable.copied object copied] at found
    cases found
  · show walk.copies.size + _ = _ + (first.tally.archived + walk.copied.size)
    rw [Walk.size_copies_of_advance done]
    omega
  · have more := listed.length_le
    simp only [Ledger.length_listed] at more ⊢
    show (before.ledger.addClasses first.root walk.classes.toList).classCount first.root + _ =
      _ + (first.tally.recordedClasses + (_ - _))
    omega

theorem copyGraph {outcome : Outcome Place}
    (done : before.copyGraph first live screening root region = .ok (outcome, after)) :
    ∃ ended walk round, Walk.advance live screening region [root]
      (Walk.start before.draft before.copies first.seen first.tally.walked) = .ok (ended, walk) ∧
      before.Toured first [.ofWalk ended walk] after round := by
  cases outcome with
  | error failure =>
    obtain ⟨walk, failed, rfl⟩ := copyGraph_error done
    exact ⟨_, walk, _, failed, abandon failed⟩
  | ok place =>
    obtain ⟨walk, draft, walked, _, rfl, _⟩ := copyGraph_ok done
    obtain ⟨round, toured⟩ := adopt draft walked
    exact ⟨_, walk, round, walked, toured⟩

/-- A call goes on its trip, if it has one, and nowhere else. -/
theorem archiveStatic {call : FieldCall} {outcome : Outcome Entry}
    (current : before.current = some first)
    (done : before.archiveStatic call.live call.screening call.ofClass call.offset call.region =
      .ok (outcome, after)) :
    ∃ round, before.Toured first (before.trip? call).toList after round := by
  have trip {root : ObjectId}
      (value : call.live.static? call.ofClass call.offset = some (.ref root))
      {outcome : Outcome Place} {middle : Recording}
      (copying : before.copyGraph first call.live call.screening root call.region =
        .ok (outcome, middle)) :
      ∃ round, before.Toured first (before.trip? call).toList middle round := by
    obtain ⟨ended, walk, round, walked, toured⟩ := copyGraph copying
    refine ⟨round, ?_⟩
    simp only [trip?, current, value, walked]
    exact toured
  cases attempt_of_archiveStatic current done with
  | missing missing =>
    refine ⟨first, ?_⟩
    simp only [trip?, current, missing]
    exact .refl current
  | @plain slot _ _ value nowhere _ added =>
    refine ⟨first, ?_⟩
    have idle : before.trip? call = none := by
      simp only [trip?, current, value]
      cases slot with
      | ref root => exact absurd rfl (nowhere root)
      | bits _ => rfl
      | null => rfl
    rw [idle]
    exact (refl current).congr rfl rfl (Ledger.listed_addEntry added)
  | refused value copying => exact trip value copying
  | differs value copying => exact trip value copying
  | copied value copying compares _ added =>
    obtain ⟨round, toured⟩ := trip value copying
    rw [Intact.compare_ok compares]
    exact ⟨round, toured.congr rfl rfl (Ledger.listed_addEntry added)⟩

/-- Whatever calls a round answers, it has gone on their trips. -/
theorem travel {calls : List FieldCall} (current : before.current = some first)
    (done : before.travel calls = .ok (trips, after)) :
    ∃ round, before.Toured first trips after round := by
  induction calls generalizing before first trips with
  | nil =>
    cases done
    exact ⟨first, .refl current⟩
  | cons call later ih =>
    obtain ⟨⟨outcome, middle⟩, answered, done⟩ := bind_eq_ok_iff.mp done
    obtain ⟨⟨more, last⟩, onward, same⟩ := bind_eq_ok_iff.mp done
    cases same
    obtain ⟨between, toured⟩ := archiveStatic current answered
    obtain ⟨round, further⟩ := ih toured.current onward
    exact ⟨round, toured.trans further⟩

/-- Visits are counted once each as long as nothing is visited again that a failed walk visited. -/
theorem nodup_visited_iff (toured : before.Toured first trips after round) :
    (trips.flatMap Trip.visited).Nodup ↔ trips.Pairwise fun earlier later =>
      earlier.finished = false → earlier.visited.Disjoint later.visited := by
  rw [List.nodup_flatMap]
  constructor
  · rintro ⟨_, apart⟩
    refine apart.imp ?_
    exact fun disjoint _ => disjoint
  · intro apart
    refine ⟨toured.distinct, (toured.apart.and apart).imp ?_⟩
    rintro earlier later ⟨finished, failed⟩
    cases ended : earlier.finished with
    | true => exact finished ended
    | false => exact failed ended

private theorem card_gained (toured : before.Toured first trips after round) :
    (after.copies.keys.toFinset \ before.copies.keys.toFinset).card + first.tally.archived =
      round.tally.archived := by
  have kept : before.copies.keys.toFinset ⊆ after.copies.keys.toFinset := by
    intro object known
    rw [List.mem_toFinset, Std.ExtTreeMap.mem_keys] at known ⊢
    obtain ⟨place, found⟩ := mem_copies_iff.mp known
    exact mem_copies_iff.mpr ⟨place, toured.kept object place found⟩
  have size (copies : Copies) : copies.keys.toFinset.card = copies.size := by
    rw [List.toFinset_card_of_nodup Std.ExtTreeMap.nodup_keys, Std.ExtTreeMap.length_keys]
  have grown := Finset.card_le_card kept
  have archived := toured.archived
  rw [size, size] at grown
  rw [Finset.card_sdiff_of_subset kept, size, size]
  omega

end Toured

variable {recording started last after : Recording} {live : Live} {root : ClassId}
  {isPartial : Bool} {calls : List FieldCall} {trips : List Trip} {tally : Tally}

/-- A round that starts has seen and counted nothing, and has no copies and no classes
to its name. -/
theorem fresh_of_startRound (begun : recording.startRound live root isPartial = .ok started) :
    started.current = some ⟨root, ∅, {}⟩ ∧ started.copies = recording.copies ∧
      started.ledger.listed root = recording.ledger.listed root := by
  obtain ⟨_, _, begun⟩ := bind_eq_ok_iff.mp begun
  obtain ⟨shape, _, same⟩ := bind_eq_ok_iff.mp begun
  cases same
  refine ⟨rfl, rfl, ?_⟩
  simp only
  split
  · rw [Ledger.listed_markPartial, Ledger.listed_enter]
  · exact Ledger.listed_enter

private theorem tally_of_endRound {round : Round} (current : last.current = some round)
    (ended : last.endRound = .ok (tally, after)) : tally = round.tally := by
  simp only [endRound, current] at ended
  split at ended
  · cases ended
  · cases ended
    rfl

/-- The counts of a recording, whichever of its calls fail: of all visits, of the objects that got a
copy, and of the classes that went onto the page of the root. All visits are as many as the objects
visited exactly if no object is visited again that a walk visited before it was given up. -/
theorem counts_of_travel (begun : recording.startRound live root isPartial = .ok started)
    (travelled : started.travel calls = .ok (trips, last))
    (ended : last.endRound = .ok (tally, after)) :
    tally.walked = (trips.flatMap Trip.visited).length ∧
    (tally.walked = (trips.flatMap Trip.visited).toFinset.card ↔
      trips.Pairwise fun earlier later =>
        earlier.finished = false → earlier.visited.Disjoint later.visited) ∧
    (∀ (object : ObjectId) (place : Place), recording.copies[object]? = some place →
      after.copies[object]? = some place) ∧
    tally.archived = (after.copies.keys.toFinset \ recording.copies.keys.toFinset).card ∧
    ∃ added, after.ledger.listed root = recording.ledger.listed root ++ added ∧
      tally.recordedClasses = added.length := by
  obtain ⟨current, copies, listed⟩ := fresh_of_startRound begun
  obtain ⟨round, toured⟩ := Toured.travel current travelled
  obtain rfl := tally_of_endRound toured.current ended
  have walked : round.tally.walked = (trips.flatMap Trip.visited).length :=
    toured.walked.trans (Nat.zero_add _)
  have kept := toured.kept
  have archived := toured.card_gained
  obtain ⟨added, more⟩ := toured.listed
  have classes := toured.recordedClasses
  rw [copies] at kept archived
  rw [← more, List.length_append] at classes
  rw [(endRound_ok ended).1]
  refine ⟨walked, ?_, kept, archived.symm, added, ?_, ?_⟩
  · rw [← toured.nodup_visited_iff, ← Multiset.coe_nodup,
      ← Multiset.toFinset_card_eq_card_iff_nodup, walked, eq_comm]
    rfl
  · rw [← listed]
    exact more.symm
  · simp only at classes
    omega

/-- A node with a leaf and with a thread, which may not be archived. The leaf is the value of
another field. -/
def snagged : Live where
  classes := #[{
      shape := {
        name := "Holder"
        traits := .plain
        statics := #[⟨"node", 16, true⟩, ⟨"leaf", 24, true⟩]
        placed := by decide }
      statics := #[.ref ⟨2⟩, .ref ⟨0⟩]
      sized := by decide },
    .ofShape (.named "Node" .plain), .ofShape (.named "Leaf" .plain),
    .ofShape (.named "Thread" ⟨true, false⟩)]
  objects := #[⟨⟨2⟩, #[.bits 7]⟩, ⟨⟨3⟩, #[]⟩, ⟨⟨1⟩, #[.ref ⟨0⟩, .ref ⟨1⟩]⟩]
  distinct := by decide
  classified := by decide
  numbered := by decide

def snaggedCalls : List FieldCall :=
  [⟨snagged, .start [], ⟨0⟩, 16, .opened⟩, ⟨snagged, .start [], ⟨0⟩, 24, .opened⟩]

/-- The leaf is counted on the walk that fails at the thread, and once more when it is archived. -/
theorem counts_of_travel_snagged : ∃ draft started trips last after, Draft.start {} = .ok draft ∧
    (start draft true).startRound snagged ⟨0⟩ false = .ok started ∧
    started.travel snaggedCalls = .ok (trips, last) ∧
    last.endRound = .ok (⟨4, 1, 1⟩, after) ∧
    trips = [⟨[⟨2⟩, ⟨0⟩, ⟨1⟩], false⟩, ⟨[⟨0⟩], true⟩] ∧
    (trips.flatMap Trip.visited).toFinset.card = 3 ∧
    after.copies.keys.toFinset.card = 1 ∧ (after.ledger.listed ⟨0⟩).length = 1 := by
  obtain ⟨draft, opened, ran⟩ : ∃ draft, Draft.start {} = .ok draft ∧
      ((start draft true).startRound snagged ⟨0⟩ false).toOption.any (fun started =>
        (started.travel snaggedCalls).toOption.any fun travelled =>
          travelled.2.endRound.toOption.any fun ended =>
            decide (ended.1 = ⟨4, 1, 1⟩ ∧ travelled.1 = [⟨[⟨2⟩, ⟨0⟩, ⟨1⟩], false⟩,
              ⟨[⟨0⟩], true⟩])) =
        true := ⟨_, rfl, by decide +kernel⟩
  obtain ⟨started, begun, ran⟩ := any_toOption_iff.mp ran
  obtain ⟨⟨trips, last⟩, travelled, ran⟩ := any_toOption_iff.mp ran
  obtain ⟨⟨tally, after⟩, ended, checked⟩ := any_toOption_iff.mp ran
  obtain ⟨counted, seen⟩ := of_decide_eq_true checked
  simp only at counted seen
  rw [counted] at ended
  obtain ⟨_, _, _, archived, added, classes, listed⟩ := counts_of_travel begun travelled ended
  refine ⟨draft, started, trips, last, after, opened, begun, travelled, ended, seen, ?_, ?_, ?_⟩
  · rw [seen]
    decide
  · have none : (start draft true).copies.keys = [] := by simp [start]
    rw [none, List.toFinset_nil, Finset.sdiff_empty] at archived
    exact archived.symm
  · rw [classes, List.length_append]
    have none : (start draft true).ledger.listed ⟨0⟩ = [] := rfl
    rw [none, ← listed]
    rfl

end Recording
end FrozenHeap
