import FrozenHeap.Proofs.Recording.Chronicle
import FrozenHeap.Proofs.Recording.Faithful
import FrozenHeap.Proofs.Recording.Twins

/-! Rollback. Where the walk behind a field fails, wherever that is, the recording is left as it was
but for class names and the count of objects walked; and whatever it is asked for later, it answers
as if the field had never been tried. -/

namespace FrozenHeap

/-- A failure comes from the walk through a graph. -/
def Failure.isOfWalk : Failure → Bool
  | .unarchivable _ => true
  | .closedReferencesOpen _ => true
  | .regionOverflow .. => true
  | _ => false

private theorem Failure.not_isOfWalk {failure : Failure} (mismatch : failure.isMismatch = true) :
    failure.isOfWalk = false := by
  cases failure with
  | verificationFailed => rfl
  | _ => cases mismatch

theorem Draft.isMismatch_of_lockstep {draft : Draft} {live : Live} {stack : List Pairing}
    {paired : Std.TreeMap ObjectId Place} {failure : Failure}
    (failed : draft.lockstep live stack paired = .ok (.error failure)) :
    failure.isMismatch = true := by
  fun_induction Draft.lockstep draft live stack paired with
  | case1 => cases failed
  | case2 _ _ _ _ _ _ ih => exact ih failed
  | case3 =>
    cases failed
    rfl
  | case4 => cases failed
  | case5 =>
    cases failed
    rfl
  | case6 _ _ _ _ _ _ _ _ _ ih => exact ih failed
  | case7 => cases failed

/-- What a recording can be asked for: the calls that a chronicle knows, and nominated fields. -/
inductive Request where
  | call (asked : Call)
  | nominated (live : Live) (screening : Screening) (nomination : Nomination)

namespace Request

/-- The outcome of a request, if it asks for an entry, and what the request makes of a recording. -/
def answer (recording : Recording) : Request → Run (Option (Outcome Entry) × Recording)
  | call (.archive live screening ofClass offset region) => do
    let (outcome, after) ← recording.archiveStatic live screening ofClass offset region
    return (some outcome, after)
  | nominated live screening nomination => do
    let (outcome, after) ← recording.archiveNomination live screening nomination
    return (some outcome, after)
  | call other => do return (none, ← other.perform recording)

/-- The classes of the heap that a request looks at are among those of these names. -/
def Knows (names : List String) : Request → Prop
  | .call asked => asked.Knows names
  | .nominated live _ _ => ∀ name ∈ live.classNames, name ∈ names

end Request

namespace Recording

/-- The answers to requests that are made one after the other, whether they succeed or fail. -/
def answerAll (recording : Recording) :
    List Request → Run (List (Option (Outcome Entry)) × Recording)
  | [] => .ok ([], recording)
  | request :: rest => do
    let (answer, next) ← request.answer recording
    let (answers, last) ← next.answerAll rest
    return (answer :: answers, last)

/-- At the end of a round among the requests, the recording has counted more objects than
64 bits hold. -/
inductive Overruns : Recording → List Request → Prop where
  | here {recording : Recording} {round : Round} {rest : List Request}
      (current : recording.current = some round)
      (exceeds : UInt64.size ≤ recording.totals.walked + round.tally.walked) :
      Overruns recording (.call .finish :: rest)
  | later {recording next : Recording} {request : Request} {rest : List Request}
      {answer : Option (Outcome Entry)} (done : request.answer recording = .ok (answer, next))
      (exceeds : Overruns next rest) : Overruns recording (request :: rest)

/-- Two recordings have made the same records, and hold the same copies at the same places. -/
structure SeemsLike (left right : Recording) : Prop where
  copies : left.copies = right.copies
  ledger : left.ledger = right.ledger
  mark : left.draft.mark = right.draft.mark
  reads : ∀ (object : ObjectId) (place : Place), right.copies[object]? = some place →
    left.draft.copyAt? place = right.draft.copyAt? place
  resolves : ∀ narrow, left.draft.resolve? narrow = right.draft.resolve? narrow

/-- Only class names and the count of objects walked have changed, and not become fewer. -/
def Retained (before after : Recording) : Prop :=
  ∃ round names walked, before.current = some round ∧
    before.draft.names.toList <+: names.toList ∧ round.tally.walked ≤ walked ∧
    after = { before with
      draft := { before.draft with names := names }
      current := some { round with tally := { round.tally with walked := walked } } }

namespace Twins

variable {known : List String} {left right : Recording}

private theorem seemsLike (twins : Twins known left right) (few : known.length ≤ UInt32.size) :
    left.SeemsLike right where
  copies := twins.copies
  ledger := twins.ledger
  mark := twins.drafts.toAlike.mark_eq
  reads _ _ cached := (twins.drafts.copyAt?_eq few cached).1
  resolves := twins.drafts.resolve?_eq

/-- Twins answer a request in the same way and stay twins, unless the first one has counted too
many objects. -/
theorem answer (twins : Twins known left right) (few : known.length ≤ UInt32.size)
    {request : Request} (familiar : request.Knows known) (rest : List Request) :
    Agree (Twins known) (request.answer left) (request.answer right) ∨
      left.Overruns (request :: rest) := by
  cases request with
  | nominated live screening nomination =>
    exact .inl ((twins.archiveNomination few familiar nomination).map some)
  | call asked =>
    cases asked with
    | archive live screening ofClass offset region =>
      exact .inl ((twins.archiveStatic few (familiar live rfl) ofClass offset).map some)
    | start live root isPartial =>
      refine .inl ((twins.startRound live root isPartial).bind fun _ _ after => ?_)
      exact .ok ⟨rfl, after⟩
    | markPartial => exact .inl (.ok ⟨rfl, twins.markPartial⟩)
    | finish =>
      rcases twins.endRound with ⟨breach, first, second⟩ |
        ⟨_, _, leftAfter, rightAfter, first, second, after⟩ | ⟨round, current, exceeds⟩
      · simp only [Request.answer, Call.perform, first, second]
        exact .inl .broken
      · simp only [Request.answer, Call.perform, first, second]
        exact .inl (.ok ⟨rfl, after⟩)
      · exact .inr (.here current exceeds)

private theorem answerAll (twins : Twins known left right) (few : known.length ≤ UInt32.size)
    {requests : List Request} (familiar : ∀ request ∈ requests, request.Knows known) :
    Agree (Twins known) (left.answerAll requests) (right.answerAll requests) ∨
      left.Overruns requests := by
  induction requests generalizing left right with
  | nil => exact .inl (.ok ⟨rfl, twins⟩)
  | cons request rest ih =>
    rcases twins.answer few (familiar request List.mem_cons_self) rest with agree | exceeds
    · simp only [Recording.answerAll]
      generalize first : request.answer left = one at agree
      generalize request.answer right = two at agree
      cases agree with
      | broken => exact .inl .broken
      | @ok one two here =>
        obtain ⟨answer, leftAfter⟩ := one
        obtain ⟨_, rightAfter⟩ := two
        obtain ⟨rfl, after⟩ := here
        rcases ih after fun other member => familiar other (List.mem_cons_of_mem _ member) with
          agree | exceeds
        · exact .inl (agree.map (answer :: ·))
        · exact .inr (.later first exceeds)
    · exact .inr exceeds

theorem start {settings : Settings} {draft : Draft} (started : Draft.start settings = .ok draft)
    (verifies : Bool) : Twins known (start draft verifies) (start draft verifies) where
  drafts := .start started
  copies := rfl
  ledger := rfl
  current := .none
  totals := ⟨rfl, Nat.le_refl _⟩
  verifies := rfl

/-- A recording that has retained all but names and a count is a twin of what it was. -/
theorem retained {before after : Recording} (twins : Twins known before before)
    (named : after.draft.Named known) (retained : before.Retained after) :
    Twins known after before := by
  obtain ⟨round, names, walked, current, longer, more, rfl⟩ := retained
  exact { twins with
    drafts := twins.drafts.rename longer named List.prefix_rfl twins.drafts.renamed
    current := by
      rw [current]
      exact .some ⟨rfl, rfl, rfl, rfl, more⟩ }

end Twins

/-- A recording that has counted too many objects cannot end its round. -/
theorem Overruns.answerAll_eq {recording : Recording} {requests : List Request}
    (exceeds : recording.Overruns requests) : recording.answerAll requests = .error .overflow := by
  induction exceeds with
  | @here recording round rest current exceeds =>
    have broken : (recording.totals.add round.tally).1 = .error .overflow := by
      simp only [Totals.add, if_pos exceeds]
      split <;> rfl
    have ended : recording.endRound = .error .overflow := by
      unfold endRound
      rw [current]
      simp only
      generalize recording.totals.add round.tally = added at broken ⊢
      obtain ⟨outcome, totals⟩ := added
      cases broken
      rfl
    simp only [answerAll, Request.answer, Call.perform, ended, bind, Except.bind]
  | later done _ ih =>
    simp only [answerAll, done, ih, bind, Except.bind]

variable {known : List String} {recording after : Recording}

private theorem twins_self {settings : Settings} {draft : Draft} {verifies : Bool}
    {requests : List Request} {answers : List (Option (Outcome Entry))}
    (started : Draft.start settings = .ok draft) (few : known.length ≤ UInt32.size)
    (familiar : ∀ request ∈ requests, request.Knows known)
    (reached : (start draft verifies).answerAll requests = .ok (answers, recording)) :
    Twins known recording recording := by
  rcases (Twins.start started verifies).answerAll few familiar with agree | exceeds
  · rw [reached] at agree
    cases agree with
    | ok here => exact here.2
  · rw [exceeds.answerAll_eq] at reached
    cases reached

/-- A field whose walk fails leaves everything but class names and the count of objects walked. -/
theorem retained_of_archiveStatic {live : Live} {screening : Screening} {ofClass : ClassId}
    {offset : UInt32} {region : Region} {failure : Failure}
    (covered : ∀ region, (recording.draft.image region).Covered)
    (done : recording.archiveStatic live screening ofClass offset region =
      .ok (.error failure, after)) (cause : failure.isOfWalk = true) :
    recording.Retained after := by
  unfold archiveStatic at done
  split at done
  · cases done
  rename_i round current
  obtain ⟨shape, _, done⟩ := bind_eq_ok_iff.mp done
  split at done
  · cases done
    cases cause
  · obtain ⟨_, _, same⟩ := bind_eq_ok_iff.mp done
    cases same
  · obtain ⟨_, _, same⟩ := bind_eq_ok_iff.mp done
    cases same
  obtain ⟨⟨copied, middle⟩, copying, done⟩ := bind_eq_ok_iff.mp done
  cases copied with
  | error other =>
    cases done
    obtain ⟨walk, failed, rfl⟩ := copyGraph_error copying
    obtain ⟨same, longer, more⟩ := abandoned covered failed
    exact ⟨round, _, _, current, longer, more, same⟩
  | ok place =>
    obtain ⟨compared, comparing, done⟩ := bind_eq_ok_iff.mp done
    cases compared with
    | ok compared =>
      obtain ⟨_, _, done⟩ := bind_eq_ok_iff.mp done
      obtain ⟨_, _, same⟩ := bind_eq_ok_iff.mp done
      cases same
    | error other =>
      cases done
      unfold compare at comparing
      split at comparing
      · split at comparing
        · cases comparing
        · rename_i differs
          cases comparing
          rw [Failure.not_isOfWalk (Draft.isMismatch_of_lockstep differs)] at cause
          cases cause
        · cases comparing
      · cases comparing

private theorem retained_of_answer {request : Request} {failure : Failure}
    (covered : ∀ region, (recording.draft.image region).Covered)
    (done : request.answer recording = .ok (some (.error failure), after))
    (cause : failure.isOfWalk = true) : recording.Retained after := by
  cases request with
  | nominated live screening nomination =>
    obtain ⟨⟨outcome, later⟩, archived, same⟩ := bind_eq_ok_iff.mp done
    cases same
    unfold archiveNomination at archived
    split at archived
    · cases archived
      cases cause
    · exact retained_of_archiveStatic covered archived cause
  | call asked =>
    cases asked with
    | archive live screening ofClass offset region =>
      obtain ⟨⟨outcome, later⟩, archived, same⟩ := bind_eq_ok_iff.mp done
      cases same
      exact retained_of_archiveStatic covered archived cause
    | start =>
      obtain ⟨_, _, same⟩ := bind_eq_ok_iff.mp done
      cases same
    | markPartial => cases done
    | finish =>
      obtain ⟨_, _, same⟩ := bind_eq_ok_iff.mp done
      cases same

/-- A field whose walk fails leaves a recording as it was, but for class names and the count of
objects walked, whatever was recorded before and wherever the walk failed. All later requests are
answered as if the field had not been tried, unless the count runs over. -/
theorem answers_of_rollback {settings : Settings} {draft : Draft} {verifies : Bool}
    {requests : List Request} {answers : List (Option (Outcome Entry))} {failed : Request}
    {failure : Failure} (heap : Live) (started : Draft.start settings = .ok draft)
    (classes : ∀ request ∈ failed :: requests, request.Knows heap.classNames)
    (reached : (start draft verifies).answerAll requests = .ok (answers, recording))
    (done : failed.answer recording = .ok (some (.error failure), after))
    (cause : failure.isOfWalk = true) :
    recording.Retained after ∧
      ∀ later : List Request, (∀ request ∈ later, request.Knows heap.classNames) →
        Agree SeemsLike (after.answerAll later) (recording.answerAll later) ∨
          after.Overruns later := by
  have few : heap.classNames.length ≤ UInt32.size := by
    rw [Live.classNames, List.length_map, Array.length_toList]
    exact heap.numbered
  rw [List.forall_mem_cons] at classes
  have twins := twins_self started few classes.2 reached
  have retained := retained_of_answer twins.drafts.covered done cause
  have named : after.draft.Named heap.classNames := by
    rcases twins.answer few classes.1 [] with agree | exceeds
    · rw [done] at agree
      cases agree with
      | ok here => exact here.2.drafts.named
    · have broken := exceeds.answerAll_eq
      simp only [Recording.answerAll, done, bind, Except.bind] at broken
      cases broken
  refine ⟨retained, fun later familiar => ?_⟩
  rcases (twins.retained named retained).answerAll few familiar with agree | exceeds
  · exact .inl (agree.imp fun _ _ here => ⟨here.1, here.2.seemsLike few⟩)
  · exact .inr exceeds

/-- A node that refers to another node and to a lock, which may not be archived. -/
def latched : Live where
  classes := #[{
      shape := {
        name := "Node"
        traits := .plain
        statics := #[⟨"first", 16, true⟩]
        placed := by decide }
      statics := #[.ref ⟨0⟩]
      sized := by decide }, .ofShape (.named "Lock" ⟨true, false⟩)]
  objects := #[⟨⟨0⟩, #[.ref ⟨1⟩, .ref ⟨2⟩]⟩, ⟨⟨0⟩, #[.bits 7]⟩, ⟨⟨1⟩, #[]⟩]
  distinct := by decide
  classified := by decide
  numbered := by decide

theorem answers_of_rollback_latched : ∃ draft answers recording after, Draft.start {} = .ok draft ∧
    (start draft true).answerAll [.call (.start latched ⟨0⟩ false)] = .ok (answers, recording) ∧
    Request.answer recording (.call (.archive latched (.start []) ⟨0⟩ 16 .opened)) =
      .ok (some (.error (.unarchivable "Lock")), after) ∧
    recording.Retained after ∧
    (Agree SeemsLike (after.answerAll [.call .finish]) (recording.answerAll [.call .finish]) ∨
      after.Overruns [.call .finish]) := by
  obtain ⟨draft, started⟩ : ∃ draft, Draft.start {} = .ok draft := ⟨_, rfl⟩
  obtain ⟨answers, recording, reached⟩ : ∃ answers recording,
      (start draft true).answerAll [.call (.start latched ⟨0⟩ false)] = .ok (answers, recording) :=
    ⟨_, _, rfl⟩
  have fails : ((Request.answer recording
      (.call (.archive latched (.start []) ⟨0⟩ 16 .opened))).map (·.1)).toOption =
        some (some (.error (.unarchivable "Lock"))) := by
    cases started
    cases reached
    decide +kernel
  cases done : Request.answer recording (.call (.archive latched (.start []) ⟨0⟩ 16 .opened)) with
  | error breach =>
    rw [done] at fails
    cases fails
  | ok result =>
    obtain ⟨outcome, after⟩ := result
    rw [done] at fails
    obtain rfl : outcome = some (.error (.unarchivable "Lock")) := Option.some.inj fails
    have looks (call : Call) (same : ∀ live, call.live? = some live → live = latched) :
        (Request.call call).Knows latched.classNames := fun live sees name listed =>
      same live sees ▸ listed
    have first := looks (.start latched ⟨0⟩ false) fun live sees => by cases sees; rfl
    have second := looks (.archive latched (.start []) ⟨0⟩ 16 .opened) fun live sees => by
      cases sees
      rfl
    have last := looks .finish fun live sees => by cases sees
    obtain ⟨retained, later⟩ := answers_of_rollback latched started
      (List.forall_mem_cons.mpr ⟨second, List.forall_mem_singleton.mpr first⟩) reached done rfl
    exact ⟨draft, answers, recording, after, started, reached, done, retained,
      later _ (List.forall_mem_singleton.mpr last)⟩

end Recording
end FrozenHeap
