import FrozenHeap.Ledger
import FrozenHeap.Recording.Lockstep
import FrozenHeap.Recording.Walk
import FrozenHeap.Tally

/-!
Recordings. Between its start and its end, a recording archives static fields of one root class. A
field that fails leaves no trace but class names and the count of objects walked, unless what failed
is the comparison of a finished copy with the live graph.
-/
namespace FrozenHeap

/-- The recording that is in progress. -/
structure Round where
  root : ClassId
  seen : Seen
  tally : Tally

/-- All that has been recorded. -/
structure Recording where
  copies : Copies
  draft : Draft
  ledger : Ledger
  current : Option Round
  totals : Totals
  /-- Compare every copied graph with the live one. -/
  verifies : Bool

/-- The finished product of recordings. -/
structure Recorded where
  draft : Draft
  ledger : Ledger
  totals : Totals

namespace Recording

def start (draft : Draft) (verifies : Bool) : Recording :=
  ⟨∅, draft, .empty, none, {}, verifies⟩

/-- Start a recording for a root class, when none is in progress. A root that was ever recorded as
partial stays so. -/
def startRound (recording : Recording) (live : Live) (root : ClassId) (isPartial : Bool) :
    Run Recording := do
  ensure (recording.current.isNone = true)
  let shape ← live.shapeOf root
  let ledger := recording.ledger.enter root shape.name isPartial
  return { recording with
    ledger := if isPartial then ledger.markPartial root else ledger
    current := some ⟨root, ∅, {}⟩ }

/-- End the recording in progress. -/
def endRound (recording : Recording) : Run (Tally × Recording) :=
  match recording.current with
  | none => .error .precondition
  | some round =>
    match recording.totals.add round.tally with
    | (.error breach, _) => .error breach
    | (.ok (), totals) => .ok (round.tally, { recording with current := none, totals := totals })

/-- Mark the root of the recording in progress as partial. -/
def markPartial (recording : Recording) : Recording :=
  match recording.current with
  | some round => { recording with ledger := recording.ledger.markPartial round.root }
  | none => recording

/-- Give up a failed walk: forget its copies and what it saw first, and cut the images back. Only
class names and the count of objects walked outlast it. -/
def abandon (recording : Recording) (round : Round) (walk : Walk) : Recording :=
  { recording with
    draft := walk.draft.rollback recording.draft.mark
    copies := walk.copied.foldl (·.erase ·) walk.copies
    current := some { round with
      seen := walk.met.foldl (·.erase ·) walk.seen
      tally := { round.tally with walked := walk.walked } } }

/-- Take over a finished walk, with the draft in which its copies are linked, and list
its classes. -/
def adopt (recording : Recording) (round : Round) (walk : Walk) (draft : Draft) : Recording :=
  let ledger := recording.ledger.addClasses round.root walk.classes.toList
  let listed := ledger.classCount round.root - recording.ledger.classCount round.root
  { recording with
    copies := walk.copies
    draft := draft
    ledger := ledger
    current := some { round with
      seen := walk.seen
      tally := {
        walked := walk.walked
        archived := round.tally.archived + walk.copied.size
        recordedClasses := round.tally.recordedClasses + listed } } }

/-- Keep a finished walk, once its copies are linked. -/
def keep (recording : Recording) (round : Round) (walk : Walk) : Run Recording := do
  return recording.adopt round walk (← Walk.patchLinks walk.copies walk.draft walk.links.toList)

/-- Copy the graph behind an object into a region. Objects that have copies keep them. -/
def copyGraph (recording : Recording) (round : Round) (live : Live) (screening : Screening)
    (root : ObjectId) (region : Region) : Run (Outcome Place × Recording) :=
  let walk := Walk.start recording.draft recording.copies round.seen round.tally.walked
  match Walk.advance live screening region [root] walk with
  | .error breach => .error breach
  | .ok (.error failure, walk) => .ok (.error failure, recording.abandon round walk)
  | .ok (.ok (), walk) => do
    let kept ← recording.keep round walk
    match kept.copies[root]? with
    | some place => return (.ok place, kept)
    | none => .error .precondition

def enter (recording : Recording) (round : Round) (entry : Entry) :
    Run (Outcome Entry × Recording) := do
  let ledger ← recording.ledger.addEntry round.root entry
  return (.ok entry, { recording with ledger := ledger })

/-- Compare a finished copy with the live graph, if that is asked for, and count the comparison. -/
def compare (recording : Recording) (live : Live) (root : ObjectId) (place : Place) :
    Run (Outcome Recording) :=
  if recording.verifies then
    match recording.draft.verify live root place with
    | .error breach => .error breach
    | .ok (.error failure) => .ok (.error failure)
    | .ok (.ok ()) => .ok (.ok { recording with totals := recording.totals.addVerification })
  else .ok (.ok recording)

/-- Copy the graph behind a static field's object, compare it, and enter it. -/
def archiveObject (recording : Recording) (round : Round) (live : Live) (screening : Screening)
    (root : ObjectId) (offset : UInt32) (region : Region) : Run (Outcome Entry × Recording) := do
  match ← recording.copyGraph round live screening root region with
  | (.error failure, recording) => return (.error failure, recording)
  | (.ok place, recording) =>
    match ← recording.compare live root place with
    | .error failure => return (.error failure, recording)
    | .ok compared =>
      let narrow ← compared.draft.narrowing.narrow place.address
      compared.enter round (.reference offset place.region narrow)

/-- Archive the value of a static field of some class under the root in progress. -/
def archiveStatic (recording : Recording) (live : Live) (screening : Screening) (ofClass : ClassId)
    (offset : UInt32) (region : Region) : Run (Outcome Entry × Recording) :=
  match recording.current with
  | none => .error .precondition
  | some round => do
    let shape ← live.shapeOf ofClass
    match live.static? ofClass offset with
    | none => return (.error (.unresolvedClass shape.name), recording)
    | some (.bits word) => recording.enter round (.primitive offset word)
    | some .null => recording.enter round (.reference offset region 0)
    | some (.ref root) => recording.archiveObject round live screening root offset region

/-- Archive the value of a nominated field, which must be resolved. -/
def archiveNomination (recording : Recording) (live : Live) (screening : Screening)
    (nomination : Nomination) : Run (Outcome Entry × Recording) :=
  match nomination.resolved with
  | none => .ok (.error (.unresolvedClass nomination.className), recording)
  | some (ofClass, offset) =>
    recording.archiveStatic live screening ofClass offset nomination.region

/-- The product of recordings that have all ended. -/
def finish (recording : Recording) : Run Recorded := do
  ensure (recording.current.isNone = true)
  return ⟨recording.draft, recording.ledger, recording.totals⟩

end Recording
end FrozenHeap
