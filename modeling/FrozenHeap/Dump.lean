import FrozenHeap.Archive
import FrozenHeap.Recording
import FrozenHeap.RecordTable.Roster

/-!
Dumps. A dump is told which static fields and which whole classes to archive, screens them, records
those that pass, and ends in an archive. What cannot be archived is left out and counted; it is
never an error of the dump.
-/
namespace FrozenHeap

/-- A dump in progress. The live heap does not change during it. -/
structure Dump where
  live : Live
  /-- How many records share a bucket of the table. -/
  bucketSize : Nat
  screening : Screening
  nominations : Array Nomination
  /-- The names of the classes to be archived whole. -/
  wholeNames : Array String
  /-- Those of them that the heap has; known once the dump is screened. -/
  wholes : List ClassId
  screened : Bool
  recording : Recording

/-- The end of a dump. -/
structure Dumped where
  archive : Archive
  totals : Totals

namespace Dump

def start (settings : Settings) (live : Live) : Except Malformed Dump :=
  match Draft.start settings with
  | .error cause => .error cause
  | .ok draft => .ok {
      live := live
      bucketSize := settings.bucketSize.toNat
      screening := .start settings.excluded
      nominations := #[]
      wholeNames := #[]
      wholes := []
      screened := false
      recording := .start draft settings.verify }

def nomination? (dump : Dump) (className fieldName : String) : Option Nomination :=
  dump.nominations.find? fun nomination =>
    nomination.className == className && nomination.fieldName == fieldName

/-- Nominate a static field, unless it is nominated already. -/
def nominate (dump : Dump) (className fieldName : String) (region : Region) : Bool × Dump :=
  if (dump.nomination? className fieldName).isSome then (false, dump)
  else (true, { dump with nominations := dump.nominations.push (.of className fieldName region) })

/-- Nominate a whole class, unless it is nominated already. -/
def nominateWhole (dump : Dump) (name : String) : Bool × Dump :=
  if dump.wholeNames.contains name then (false, dump)
  else (true, { dump with wholeNames := dump.wholeNames.push name })

/-- Screen what was nominated so far. Only the first call does. -/
def screen (dump : Dump) : Run Dump :=
  if dump.screened then .ok dump
  else do
    let wholes := dump.wholeNames.toList.filterMap dump.live.classNamed?
    let screening ← dump.screening.checkClasses dump.live wholes
    let (nominations, screening) ← screening.checkFields dump.live dump.nominations.toList
    return { dump with
      screening := screening
      nominations := nominations.toArray
      wholes := wholes
      screened := true }

def isPreservableClass (dump : Dump) (ofClass : ClassId) : Bool :=
  dump.screening.verdict ofClass == .preservable

def isPreservableField (dump : Dump) (className fieldName : String) : Bool :=
  (dump.nomination? className fieldName).any (·.isPreservable)

def startRound (dump : Dump) (root : ClassId) (isPartial : Bool) : Run Dump := do
  return { dump with recording := ← dump.recording.startRound dump.live root isPartial }

def endRound (dump : Dump) : Run (Tally × Dump) := do
  let (tally, recording) ← dump.recording.endRound
  return (tally, { dump with recording := recording })

def count (dump : Dump) (change : Totals → Totals) : Dump :=
  { dump with recording := { dump.recording with totals := change dump.recording.totals } }

/-- Archive a nominated field under the root in progress. Fields that did not pass the screening, or
fail now, are skipped. -/
def archive (dump : Dump) (index : Nat) : Run (Option Entry × Dump) := do
  match dump.nominations[index]? with
  | none => return (none, dump)
  | some nomination =>
    if nomination.isPreservable then
      match ← dump.recording.archiveNomination dump.live dump.screening nomination with
      | (.ok entry, recording) =>
        return (some entry, { dump with recording := recording }.count (·.addArchived))
      | (.error _, recording) =>
        return (none, { dump with recording := recording }.count (·.addSkipped 1))
    else return (none, dump.count (·.addSkipped 1))

/-- The resolved nominations for one region that are not covered by a whole class, by
their classes. -/
def groupsOf (dump : Dump) (region : Region) : List (ClassId × List Nat) :=
  let listed := dump.nominations.toList.zipIdx.filterMap fun (nomination, index) =>
    match nomination.resolved with
    | some (ofClass, _) =>
      if nomination.region = region ∧ ofClass ∉ dump.wholes then some (ofClass, index) else none
    | none => none
  (listed.map (·.1)).eraseDups.map fun ofClass =>
    (ofClass, (listed.filter (·.1 == ofClass)).map (·.2))

/-- All groups, those for the closed region first: what is open by then could not become closed. -/
def groups (dump : Dump) : List (ClassId × List Nat) := Region.all.flatMap dump.groupsOf

/-- Archive a group of nominated fields in a round of its own. -/
def archiveGroup (dump : Dump) (group : ClassId × List Nat) : Run Dump := do
  let dump ← dump.startRound group.1 true
  let dump ← group.2.foldlM (fun dump index => do return (← dump.archive index).2) dump
  return (← dump.endRound).2

/-- Archive a static field of a whole class. One that fails makes the class's record partial. -/
def archiveStatic (dump : Dump) (ofClass : ClassId) (field : StaticField) : Run Dump := do
  match ← dump.recording.archiveStatic dump.live dump.screening ofClass field.offset .opened with
  | (.ok _, recording) => return { dump with recording := recording }.count (·.addArchived)
  | (.error _, recording) =>
    return { dump with recording := recording.markPartial }.count (·.addSkipped 1)

/-- Archive all static fields of a class in a round of its own, if the class passed
the screening. -/
def archiveWhole (dump : Dump) (ofClass : ClassId) : Run Dump := do
  let statics := (← dump.live.shapeOf ofClass).statics.toList
  if dump.isPreservableClass ofClass then
    let dump ← dump.startRound ofClass false
    let dump ← statics.foldlM (·.archiveStatic ofClass ·) dump
    return (← dump.endRound).2
  else return dump.count (·.addSkipped statics.length)

/-- Archive all that was nominated. -/
def archiveAll (dump : Dump) : Run Dump := do
  let dump ← dump.screen
  let dump ← dump.groups.foldlM archiveGroup dump
  dump.wholes.foldlM archiveWhole dump

/-- The records of a ledger: pages without an entry and without a class are left out. -/
def rosterOf (ledger : Ledger) : Run Roster :=
  (ledger.pages.toList.filter fun page => !page.entries.isEmpty || !page.classes.isEmpty).foldlM
    (fun roster page => do return (← roster.add page.name page.toRecord).2) .empty

/-- Write the archive. No round may be in progress. -/
def finish (dump : Dump) : Run (Outcome Dumped) := do
  let recorded ← dump.recording.finish
  let roster ← rosterOf recorded.ledger
  match roster.toBytes dump.bucketSize with
  | .error cause => return .error (.malformed cause)
  | .ok table =>
    let (names, closed, opened) := recorded.draft.finish
    return .ok ⟨⟨recorded.draft.narrowing, names, table, [closed, opened]⟩, recorded.totals⟩

end Dump
end FrozenHeap
