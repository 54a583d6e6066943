import FrozenHeap.Proofs.Dump.Finish
import FrozenHeap.Session

namespace FrozenHeap

/-- A request to archive a static field or a whole class. -/
inductive Registration where
  | field (className fieldName : String) (region : Region)
  | whole (name : String)

namespace Session

def register (session : Session) : Registration → Run Session
  | .field className fieldName region => do
    return (← session.nominate className fieldName region).2
  | .whole name => do return (← session.nominateWhole name).2

/-- Take all requests, archive what they ask for, and end the session. -/
def run (session : Session) (requests : List Registration) :
    Run (Session × Outcome (Option Dumped)) := do
  let ready ← requests.foldlM register session
  let ((), last) ← ready.archiveAll
  return (last, ← last.finish)

/-- The session and the archive that a run ends with, if it ends with one. -/
def left? : Run (Session × Outcome (Option Dumped)) → Option (Session × Dumped)
  | .ok (last, .ok (some dumped)) => some (last, dumped)
  | _ => none

theorem of_left? {ran : Run (Session × Outcome (Option Dumped))} {left : Session × Dumped}
    (found : left? ran = some left) : ran = .ok (left.1, .ok (some left.2)) := by
  unfold left? at found
  split at found
  · cases found
    rfl
  · cases found

def pages (session : Session) : List Page :=
  (session.dump.map (·.recording.ledger.pages.toList)).getD []

/-- A class has a page that is not blank. -/
def Records (session : Session) (name : String) : Prop :=
  ∃ page ∈ session.pages, page.name = name ∧ page.isWritten = true

/-- A static field of one of the classes of these names has an entry. -/
def Archived (session : Session) (names : List String) (ofClass : ClassId) (offset : UInt32) :
    Prop :=
  ∃ page ∈ session.pages, page.ofClass = ofClass ∧ page.name ∈ names ∧
    ∃ entry ∈ page.entries, entry.offset = offset

/-- A session on a heap, whose recording has a property. -/
def Keeps (live : Live) (holds : Recording → Prop) (session : Session) : Prop :=
  ∃ dump, session.dump = some dump ∧ dump.live = live ∧ holds dump.recording

/-- A session on a heap, which has recorded nothing but true pages. -/
def Truthful (live : Live) (session : Session) : Prop :=
  ∃ dump, session.dump = some dump ∧ dump.live = live ∧ dump.recording.Truthful live

variable {session after : Session} {live : Live}

theorem pages_eq {dump : Dump} (here : session.dump = some dump) :
    session.pages = dump.recording.ledger.pages.toList := by
  rw [pages, here]
  rfl

/-- The dump of a session that has started has just started, too. -/
theorem start_of_dump {settings : Settings} {dump : Dump}
    (started : Session.start settings live = .ok session) (here : session.dump = some dump) :
    Dump.start settings live = .ok dump := by
  unfold Session.start at started
  split at started
  · split at started
    · cases started
    · rename_i begun
      cases started
      cases here
      exact begun
  · cases started
    cases here

theorem exists_change {idle answer : α} {change : Dump → Run (α × Dump)} {dump : Dump}
    (here : session.dump = some dump) (done : session.act idle change = .ok (answer, after)) :
    ∃ later, after.dump = some later ∧ change dump = .ok (answer, later) := by
  unfold act at done
  rw [here] at done
  obtain ⟨⟨_, later⟩, changed, same⟩ := bind_eq_ok_iff.mp done
  cases same
  exact ⟨later, rfl, changed⟩

/-- What a session has afterwards was made of what it had before. -/
theorem exists_origin {idle answer : α} {change : Dump → Run (α × Dump)} {later : Dump}
    (there : after.dump = some later) (done : session.act idle change = .ok (answer, after)) :
    ∃ dump, session.dump = some dump ∧ change dump = .ok (answer, later) := by
  cases here : session.dump with
  | none =>
    simp only [act, here] at done
    cases done
    rw [here] at there
    cases there
  | some dump =>
    obtain ⟨_, same, changed⟩ := exists_change here done
    rw [there] at same
    cases same
    exact ⟨dump, rfl, changed⟩

/-- Only a session with a dump leaves an archive, which is that of the dump. -/
theorem exists_dump_of_finish {dumped : Dumped}
    (finished : session.finish = .ok (.ok (some dumped))) :
    ∃ dump, session.dump = some dump ∧ dump.finish = .ok (.ok dumped) := by
  unfold finish at finished
  split at finished
  · cases finished
  · rename_i dump here
    obtain ⟨outcome, ended, same⟩ := bind_eq_ok_iff.mp finished
    cases outcome with
    | error failure => cases same
    | ok other =>
      cases same
      exact ⟨dump, here, ended⟩

namespace Keeps

variable {holds : Recording → Prop}

theorem start {settings : Settings} (enabled : settings.enabled = true)
    (started : Session.start settings live = .ok session)
    (initial : ∀ draft, Draft.start settings = .ok draft →
      holds (Recording.start draft settings.verify)) : session.Keeps live holds := by
  unfold Session.start at started
  rw [if_pos enabled] at started
  split at started
  · cases started
  · rename_i dump begun
    cases started
    unfold Dump.start at begun
    split at begun
    · cases begun
    · rename_i draft laid
      cases begun
      exact ⟨_, rfl, rfl, initial draft laid⟩

theorem register (keeps : session.Keeps live holds) {registration : Registration}
    (done : session.register registration = .ok after) : after.Keeps live holds := by
  obtain ⟨dump, here, heap, recorded⟩ := keeps
  cases registration with
  | field className fieldName region =>
    obtain ⟨⟨answer, next⟩, taken, same⟩ := bind_eq_ok_iff.mp done
    cases same
    obtain ⟨later, there, changed⟩ := exists_change here taken
    unfold Dump.nominate at changed
    split at changed <;> cases changed <;> exact ⟨_, there, heap, recorded⟩
  | whole name =>
    obtain ⟨⟨answer, next⟩, taken, same⟩ := bind_eq_ok_iff.mp done
    cases same
    obtain ⟨later, there, changed⟩ := exists_change here taken
    unfold Dump.nominateWhole at changed
    split at changed <;> cases changed <;> exact ⟨_, there, heap, recorded⟩

/-- What archiving keeps of the recording of a dump, it keeps of a session. -/
theorem archiveAll (keeps : session.Keeps live holds)
    (step : ∀ dump later : Dump, dump.live = live → holds dump.recording →
      dump.archiveAll = .ok later → later.live = live ∧ holds later.recording) {answer : Unit}
    (done : session.archiveAll = .ok (answer, after)) : after.Keeps live holds := by
  obtain ⟨dump, here, heap, recorded⟩ := keeps
  obtain ⟨later, there, changed⟩ := exists_change here done
  obtain ⟨last, archived, same⟩ := bind_eq_ok_iff.mp changed
  cases same
  exact ⟨_, there, step dump _ heap recorded archived⟩

/-- What a session starts with and what archiving keeps, the session has when it leaves
an archive. -/
theorem exists_dump (keeps : session.Keeps live holds)
    (step : ∀ dump later : Dump, dump.live = live → holds dump.recording →
      dump.archiveAll = .ok later → later.live = live ∧ holds later.recording)
    {requests : List Registration} {dumped : Dumped}
    (ran : session.run requests = .ok (after, .ok (some dumped))) :
    ∃ dump, after.dump = some dump ∧ holds dump.recording ∧ dump.finish = .ok (.ok dumped) := by
  obtain ⟨ready, registered, ran⟩ := bind_eq_ok_iff.mp ran
  obtain ⟨⟨_, last⟩, archived, ran⟩ := bind_eq_ok_iff.mp ran
  obtain ⟨outcome, finished, same⟩ := bind_eq_ok_iff.mp ran
  cases same
  have registered := foldlM_preserves (Keeps live holds)
    (fun _ _ _ _ done keeps => keeps.register done) keeps registered
  obtain ⟨dump, here, _, recorded⟩ := registered.archiveAll step archived
  obtain ⟨_, there, ended⟩ := exists_dump_of_finish finished
  rw [here] at there
  cases there
  exact ⟨dump, here, recorded, ended⟩

end Keeps

theorem Truthful.start {settings : Settings} (enabled : settings.enabled = true)
    (bounded : settings.Bounded) (started : Session.start settings live = .ok session) :
    session.Truthful live :=
  Keeps.start enabled started fun _ laid => .start laid bounded settings.verify

/-- A session that leaves an archive has recorded true pages. -/
theorem exists_dump {requests : List Registration} {dumped : Dumped}
    (truthful : session.Truthful live)
    (ran : session.run requests = .ok (after, .ok (some dumped))) :
    ∃ dump, after.dump = some dump ∧ dump.recording.Truthful live ∧
      dump.finish = .ok (.ok dumped) := by
  refine Keeps.exists_dump truthful (fun dump later heap recorded archived => ?_) ran
  subst heap
  exact Dump.truthful_archiveAll recorded archived

end Session
end FrozenHeap
