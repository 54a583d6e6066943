import FrozenHeap.Archive
import FrozenHeap.Archive.Measuring
import FrozenHeap.Archive.Reading
import FrozenHeap.Archive.Written
import FrozenHeap.Breach
import FrozenHeap.Draft
import FrozenHeap.Dump
import FrozenHeap.Entry
import FrozenHeap.Failure
import FrozenHeap.Hex
import FrozenHeap.Identity
import FrozenHeap.Ledger
import FrozenHeap.LittleEndian
import FrozenHeap.Live
import FrozenHeap.Loaded
import FrozenHeap.Marks
import FrozenHeap.Marks.Counted
import FrozenHeap.Narrowing
import FrozenHeap.Narrowing.Shifting
import FrozenHeap.Nomination
import FrozenHeap.Pages
import FrozenHeap.Proofs.Agreement
import FrozenHeap.Proofs.AllOrNothing
import FrozenHeap.Proofs.Archive.Canonical
import FrozenHeap.Proofs.Archive.Truncation
import FrozenHeap.Proofs.Draft.Addresses
import FrozenHeap.Proofs.Draft.Cells
import FrozenHeap.Proofs.Draft.Frame
import FrozenHeap.Proofs.Draft.Growth
import FrozenHeap.Proofs.Draft.Restoring
import FrozenHeap.Proofs.Dump.Courses
import FrozenHeap.Proofs.Dump.Logs
import FrozenHeap.Proofs.Dump.Outcomes
import FrozenHeap.Proofs.Dump.Trials
import FrozenHeap.Proofs.Flags
import FrozenHeap.Proofs.Isomorphic
import FrozenHeap.Proofs.Ledger
import FrozenHeap.Proofs.Loaded.Dealings
import FrozenHeap.Proofs.Loaded.Relocating
import FrozenHeap.Proofs.Loaded.Retries
import FrozenHeap.Proofs.Marks
import FrozenHeap.Proofs.Marks.Coverage
import FrozenHeap.Proofs.Narrowing.Bijection
import FrozenHeap.Proofs.Process
import FrozenHeap.Proofs.Reach
import FrozenHeap.Proofs.RecordTable.Cut
import FrozenHeap.Proofs.Recording.Chronicle
import FrozenHeap.Proofs.Recording.Deciding
import FrozenHeap.Proofs.Recording.Faithful
import FrozenHeap.Proofs.Recording.Intact
import FrozenHeap.Proofs.Recording.Listing
import FrozenHeap.Proofs.Recording.Only
import FrozenHeap.Proofs.Recording.Outlines
import FrozenHeap.Proofs.Recording.Residue
import FrozenHeap.Proofs.Recording.Rollback
import FrozenHeap.Proofs.Recording.Tallies
import FrozenHeap.Proofs.Recording.Verification
import FrozenHeap.Proofs.Reordered
import FrozenHeap.Proofs.RoundTrip
import FrozenHeap.Proofs.Screening.Exclusion
import FrozenHeap.Proofs.Screening.Inquiries
import FrozenHeap.Proofs.Screening.Search
import FrozenHeap.Proofs.Screening.Verdicts
import FrozenHeap.Proofs.Session.Commands
import FrozenHeap.Proofs.Thaw.Interleaving
import FrozenHeap.Proofs.Thaw.Refusing
import FrozenHeap.RecordTable
import FrozenHeap.RecordTable.Layout
import FrozenHeap.RecordTable.NameHash
import FrozenHeap.RecordTable.Roster
import FrozenHeap.Recording
import FrozenHeap.Recording.Lockstep
import FrozenHeap.Recording.Walk
import FrozenHeap.Region
import FrozenHeap.Relocation
import FrozenHeap.Resident
import FrozenHeap.Screening
import FrozenHeap.Search
import FrozenHeap.Session
import FrozenHeap.Settings
import FrozenHeap.Tally
import FrozenHeap.Thaw
