import FrozenHeap.Breach

/-!
Counts of what a dump did. Nothing in an archive depends on them.

Counts are words of 64 bits. Only `Totals.add` checks that they stay in range, since it can be
handed any counts. All others go up with each object that is walked and each field that is handled,
and no run is long enough to take them out of range: they are plain numbers.
-/
namespace FrozenHeap

/-- The counts of one recording. -/
structure Tally where
  /-- Objects visited for the first time in the recording. -/
  walked : Nat := 0
  /-- Objects copied in the recording. -/
  archived : Nat := 0
  /-- Classes added to the root's list in the recording. -/
  recordedClasses : Nat := 0
  deriving DecidableEq, Repr, Inhabited

/-- The counts of a whole dump. -/
structure Totals where
  recordings : Nat := 0
  walked : Nat := 0
  archived : Nat := 0
  recordedClasses : Nat := 0
  archivedFields : Nat := 0
  skippedFields : Nat := 0
  verifications : Nat := 0
  deriving DecidableEq, Repr, Inhabited

namespace Totals

/-- Add the counts of a finished recording, one after the other. A count that would leave 64 bits
stops the addition there. -/
def add (totals : Totals) (tally : Tally) : Run Unit × Totals :=
  let limit := UInt64.size
  if limit ≤ totals.recordings + 1 then (.error .overflow, totals)
  else
    let totals := { totals with recordings := totals.recordings + 1 }
    if limit ≤ totals.walked + tally.walked then (.error .overflow, totals)
    else
      let totals := { totals with walked := totals.walked + tally.walked }
      if limit ≤ totals.archived + tally.archived then (.error .overflow, totals)
      else
        let totals := { totals with archived := totals.archived + tally.archived }
        if limit ≤ totals.recordedClasses + tally.recordedClasses then (.error .overflow, totals)
        else
          (.ok (),
            { totals with recordedClasses := totals.recordedClasses + tally.recordedClasses })

def addArchived (totals : Totals) : Totals :=
  { totals with archivedFields := totals.archivedFields + 1 }

def addSkipped (totals : Totals) (count : Nat) : Totals :=
  { totals with skippedFields := totals.skippedFields + count }

def addVerification (totals : Totals) : Totals :=
  { totals with verifications := totals.verifications + 1 }

end Totals
end FrozenHeap
