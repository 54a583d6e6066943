import FrozenHeap.Dump

namespace FrozenHeap

/-- A dump, or none when archiving is switched off. -/
structure Session where
  dump : Option Dump

namespace Session

/-- Start a session. Settings are looked at only if archiving is switched on. -/
def start (settings : Settings) (live : Live) : Except Malformed Session :=
  if settings.enabled then
    match Dump.start settings live with
    | .error cause => .error cause
    | .ok dump => .ok ⟨some dump⟩
  else .ok ⟨none⟩

def isEnabled (session : Session) : Bool := session.dump.isSome

/-- Change the dump and answer with what the change gives; without a dump, the answer is `idle`. -/
def act (session : Session) (idle : α) (change : Dump → Run (α × Dump)) : Run (α × Session) :=
  match session.dump with
  | none => .ok (idle, session)
  | some dump => do
    let (answer, dump) ← change dump
    return (answer, ⟨some dump⟩)

def nominate (session : Session) (className fieldName : String) (region : Region) :
    Run (Bool × Session) :=
  session.act false fun dump => .ok (dump.nominate className fieldName region)

def nominateWhole (session : Session) (name : String) : Run (Bool × Session) :=
  session.act false fun dump => .ok (dump.nominateWhole name)

def screen (session : Session) : Run (Unit × Session) :=
  session.act () fun dump => do return ((), ← dump.screen)

def startRound (session : Session) (root : ClassId) (isPartial : Bool) : Run (Unit × Session) :=
  session.act () fun dump => do return ((), ← dump.startRound root isPartial)

def endRound (session : Session) : Run (Tally × Session) := session.act {} Dump.endRound

def archive (session : Session) (index : Nat) : Run (Option Entry × Session) :=
  session.act none (·.archive index)

def archiveAll (session : Session) : Run (Unit × Session) :=
  session.act () fun dump => do return ((), ← dump.archiveAll)

def isPreservableClass (session : Session) (ofClass : ClassId) : Bool :=
  session.dump.any (·.isPreservableClass ofClass)

def isPreservableField (session : Session) (className fieldName : String) : Bool :=
  session.dump.any (·.isPreservableField className fieldName)

def nominations (session : Session) : List Nomination :=
  (session.dump.map (·.nominations.toList)).getD []

def totals (session : Session) : Totals := (session.dump.map (·.recording.totals)).getD {}

/-- End the session. Only one with a dump leaves an archive. -/
def finish (session : Session) : Run (Outcome (Option Dumped)) :=
  match session.dump with
  | none => .ok (.ok none)
  | some dump => do return (← dump.finish).map some

end Session
end FrozenHeap
