import FrozenHeap.Proofs.Agreement
import FrozenHeap.Proofs.AllOrNothing
import FrozenHeap.Proofs.Dump.Outcomes

namespace FrozenHeap

private theorem eraseDups_concat [DecidableEq α] (front : List α) (item : α) :
    (front ++ [item]).eraseDups =
    if item ∈ front.eraseDups then front.eraseDups else front.eraseDups ++ [item] := by
  rw [List.eraseDups_append]
  split <;> rename_i known <;> rw [List.mem_eraseDups] at known
  · simp [List.removeAll, known]
  · simp [List.removeAll, known, List.eraseDups_cons]

namespace Registration

def nomination? : Registration → Option Nomination
  | .field className fieldName region => some (.of className fieldName region)
  | .whole _ => none

def whole? : Registration → Option String
  | .field _ _ _ => none
  | .whole name => some name

private theorem whole?_eq_some_iff {request : Registration} {name : String} :
    request.whole? = some name ↔ request = .whole name := by
  cases request <;> simp [whole?]

theorem nomination?_eq_some_iff {request : Registration} {nomination : Nomination} :
    request.nomination? = some nomination ↔ ∃ className fieldName region,
      request = .field className fieldName region ∧
        Nomination.of className fieldName region = nomination := by
  cases request with
  | field className fieldName region =>
    simp only [nomination?, Option.some.injEq, field.injEq]
    constructor
    · exact fun same => ⟨_, _, _, ⟨rfl, rfl, rfl⟩, same⟩
    · rintro ⟨_, _, _, ⟨rfl, rfl, rfl⟩, same⟩
      exact same
  | whole name => simp [nomination?]

end Registration

namespace Dump

/-- A dump that only took these requests, and recorded nothing. -/
structure Took (settings : Settings) (live : Live) (requests : List Registration) (dump : Dump) :
    Prop where
  heap : dump.live = live
  bucketSize : dump.bucketSize = settings.bucketSize.toNat
  screening : dump.screening = .start settings.excluded
  recording : ∃ draft, Draft.start settings = .ok draft ∧
    dump.recording = .start draft settings.verify
  wholes : dump.wholeNames.toList = (requests.filterMap Registration.whole?).eraseDups
  nominated : ∀ nomination ∈ dump.nominations,
    nomination ∈ requests.filterMap Registration.nomination?
  named : ∀ nomination ∈ requests.filterMap Registration.nomination?,
    ∃ taken ∈ dump.nominations, taken.names = nomination.names

namespace Took

variable {settings : Settings} {live : Live} {requests : List Registration} {dump : Dump}

theorem start (started : Dump.start settings live = .ok dump) : dump.Took settings live [] := by
  unfold Dump.start at started
  split at started
  · cases started
  · rename_i draft laid
    cases started
    exact ⟨rfl, rfl, rfl, ⟨draft, laid, rfl⟩, rfl, by simp, by simp⟩

variable (took : dump.Took settings live requests)
include took

/-- A nomination is taken, unless there is one of the same names. -/
theorem nominate (className fieldName : String) (region : Region) :
    (dump.nominate className fieldName region).2.Took settings live
      (requests ++ [.field className fieldName region]) := by
  have wholes : (requests ++ [Registration.field className fieldName region]).filterMap
      Registration.whole? = requests.filterMap Registration.whole? := by
    simp [List.filterMap_append, Registration.whole?]
  have asked : (requests ++ [Registration.field className fieldName region]).filterMap
      Registration.nomination? =
        requests.filterMap Registration.nomination? ++ [.of className fieldName region] := by
    simp [List.filterMap_append, Registration.nomination?]
  unfold Dump.nominate
  split
  · rename_i known
    obtain ⟨taken, present, same⟩ := Array.find?_isSome.mp known
    refine { took with wholes := wholes ▸ took.wholes, nominated := ?_, named := ?_ }
    · intro nomination listed
      exact asked ▸ List.mem_append_left _ (took.nominated nomination listed)
    · intro nomination listed
      rw [asked, List.mem_append, List.mem_singleton] at listed
      rcases listed with old | rfl
      · exact took.named nomination old
      · exact ⟨taken, present, by simpa [Nomination.names, Nomination.of] using same⟩
  · refine { took with wholes := wholes ▸ took.wholes, nominated := ?_, named := ?_ }
    · intro nomination listed
      rw [asked, List.mem_append, List.mem_singleton]
      exact (Array.mem_push.mp listed).imp_left (took.nominated nomination)
    · intro nomination listed
      rw [asked, List.mem_append, List.mem_singleton] at listed
      rcases listed with old | rfl
      · obtain ⟨taken, present, same⟩ := took.named nomination old
        exact ⟨taken, Array.mem_push.mpr (.inl present), same⟩
      · exact ⟨_, Array.mem_push.mpr (.inr rfl), rfl⟩

theorem nominateWhole (name : String) :
    (dump.nominateWhole name).2.Took settings live (requests ++ [.whole name]) := by
  have asked : (requests ++ [Registration.whole name]).filterMap Registration.nomination? =
      requests.filterMap Registration.nomination? := by
    simp [List.filterMap_append, Registration.nomination?]
  have wholes : ((requests ++ [Registration.whole name]).filterMap Registration.whole?).eraseDups =
      if name ∈ dump.wholeNames.toList then dump.wholeNames.toList
      else dump.wholeNames.toList ++ [name] := by
    rw [took.wholes, ← eraseDups_concat]
    simp [List.filterMap_append, Registration.whole?]
  unfold Dump.nominateWhole
  split
  · rename_i known
    rw [if_pos (Array.mem_toList_iff.mpr (Array.contains_iff_mem.mp known))] at wholes
    exact { took with
      wholes := wholes.symm, nominated := asked ▸ took.nominated, named := asked ▸ took.named }
  · rename_i unknown
    rw [if_neg fun old =>
      unknown (Array.contains_iff_mem.mpr (Array.mem_toList_iff.mp old))] at wholes
    exact { took with
      wholes := Array.toList_push.trans wholes.symm
      nominated := asked ▸ took.nominated
      named := asked ▸ took.named }

theorem mem_wholeNames {name : String} :
    name ∈ dump.wholeNames ↔ Registration.whole name ∈ requests := by
  rw [← Array.mem_toList_iff, took.wholes, List.mem_eraseDups, List.mem_filterMap]
  simp only [Registration.whole?_eq_some_iff, exists_eq_right]

/-- Of requests that all name different fields, each nomination is taken. -/
theorem mem_nominations
    (distinct : ((requests.filterMap Registration.nomination?).map Nomination.names).Nodup)
    {nomination : Nomination} : nomination ∈ dump.nominations ↔
      nomination ∈ requests.filterMap Registration.nomination? := by
  refine ⟨took.nominated nomination, fun asked => ?_⟩
  obtain ⟨taken, present, same⟩ := took.named nomination asked
  exact List.inj_on_of_nodup_map distinct (took.nominated taken present) asked same ▸ present

end Took
end Dump

namespace Session

variable {settings : Settings} {live : Live} {session ready after last : Session} {dump : Dump}
  {requests : List Registration}

private theorem took_register {request : Registration} {front : List Registration}
    (before : ∀ dump, session.dump = some dump → dump.Took settings live front)
    (done : session.register request = .ok after) :
    ∀ dump, after.dump = some dump → dump.Took settings live (front ++ [request]) := by
  intro later there
  cases request with
  | field className fieldName region =>
    obtain ⟨⟨answer, next⟩, taken, same⟩ := bind_eq_ok_iff.mp done
    cases same
    obtain ⟨dump, here, changed⟩ := exists_origin there taken
    obtain rfl : (dump.nominate className fieldName region).2 = later :=
      congrArg Prod.snd (Except.ok.inj changed)
    exact (before dump here).nominate className fieldName region
  | whole name =>
    obtain ⟨⟨answer, next⟩, taken, same⟩ := bind_eq_ok_iff.mp done
    cases same
    obtain ⟨dump, here, changed⟩ := exists_origin there taken
    obtain rfl : (dump.nominateWhole name).2 = later := congrArg Prod.snd (Except.ok.inj changed)
    exact (before dump here).nominateWhole name

private theorem took_of_start (started : start settings live = .ok session)
    (taken : requests.foldlM register session = .ok ready) :
    ∀ dump, ready.dump = some dump → dump.Took settings live requests :=
  foldlM_prefix
    (fun front state => ∀ dump, state.dump = some dump → dump.Took settings live front)
    (fun _ _ _ _ _ _ _ done before => took_register before done)
    (fun _ here => .start (start_of_dump started here)) taken

end Session

/-- What becomes of the dump of a session: it takes requests, screens what they ask for, and
archives all of it. -/
structure Dump.Passes (settings : Settings) (live : Live) (requests : List Registration)
    (asked screened dump : Dump) : Prop where
  took : asked.Took settings live requests
  requested : asked.Requested
  screening : asked.screen = .ok screened
  screens : asked.Screened screened
  archived : screened.archiveScreened = .ok dump

namespace Dump.Passes

variable {settings : Settings} {live : Live} {requests : List Registration}
  {asked screened dump : Dump} (passes : Passes settings live requests asked screened dump)
  (closed : live.Closed)
include passes

theorem heap : screened.live = live := passes.screens.live.trans passes.took.heap

private theorem archiveAll_eq_ok : asked.archiveAll = .ok dump := by
  rw [archiveAll_eq, passes.screening]
  exact passes.archived

theorem recorded : dump.recording.Truthful live := by
  have recorded := (truthful_archiveAll passes.requested.ready.underway.recorded
    passes.archiveAll_eq_ok).2
  rwa [passes.took.heap] at recorded

theorem started (bounded : settings.Bounded) : asked.recording.Listed live := by
  obtain ⟨draft, laid, blank⟩ := passes.took.recording
  exact blank ▸ .start laid bounded settings.verify

theorem listed (bounded : settings.Bounded) : dump.recording.Listed live := by
  have listed : asked.recording.Listed asked.live := passes.took.heap ▸ passes.started bounded
  have complete := (listed_archiveAll listed passes.archiveAll_eq_ok).2
  rwa [passes.took.heap] at complete

include closed

theorem vetted : screened.Vetted :=
  passes.screens.vetted passes.requested (passes.took.heap.symm ▸ closed)

theorem exists_log : ∃ log, screened.Completes log dump := by
  obtain ⟨draft, _, blank⟩ := passes.took.recording
  refine (passes.vetted closed).exists_log (fun ofClass => ?_) passes.archived
  rw [outline?, passes.screens.recording, blank]
  rfl

end Dump.Passes

namespace Session

variable {settings : Settings} {live : Live} {session last : Session} {requests : List Registration}
  {left : Outcome (Option Dumped)} {dump : Dump}

theorem finish_of_run (ran : session.run requests = .ok (last, left)) : last.finish = .ok left := by
  obtain ⟨_, _, ran⟩ := bind_eq_ok_iff.mp ran
  obtain ⟨_, _, ran⟩ := bind_eq_ok_iff.mp ran
  obtain ⟨_, finished, same⟩ := bind_eq_ok_iff.mp ran
  cases same
  exact finished

/-- A run takes the dump of its session from the requests to the end. -/
theorem exists_passes (closed : live.Closed) (bounded : settings.Bounded)
    (started : start settings live = .ok session) (ran : session.run requests = .ok (last, left))
    (here : last.dump = some dump) : ∃ ready asked screened,
      requests.foldlM register session = .ok ready ∧ ready.dump = some asked ∧
      Dump.Passes settings live requests asked screened dump := by
  obtain ⟨ready, taken, ran⟩ := bind_eq_ok_iff.mp ran
  obtain ⟨⟨_, last⟩, archives, ran⟩ := bind_eq_ok_iff.mp ran
  obtain ⟨_, _, same⟩ := bind_eq_ok_iff.mp ran
  cases same
  obtain ⟨asked, origin, changed⟩ := exists_origin here archives
  obtain ⟨_, archived, same⟩ := bind_eq_ok_iff.mp changed
  cases same
  have fresh : session.Requested live := .start started bounded
  obtain ⟨_, again, requested⟩ := fresh.exists_ready requests
  cases taken.symm.trans again
  obtain ⟨asks, heap⟩ := requested asked origin
  obtain ⟨screened, screening, screens⟩ := asks.exists_screen (heap.symm ▸ closed)
  rw [Dump.archiveAll_eq, screening] at archived
  exact ⟨ready, asked, screened, taken, origin,
    took_of_start started taken asked origin, asks, screening, screens, archived⟩

/-- All that a run counts stays below 64 bits. -/
def Countable (session : Session) (requests : List Registration) : Prop :=
  ∀ ready asked screened, requests.foldlM register session = .ok ready → ready.dump = some asked →
    asked.screen = .ok screened → screened.workload < UInt64.size

/-- A run comes to an end, as long as its counts do not overflow. -/
theorem exists_run (closed : live.Closed) (bounded : settings.Bounded)
    (started : start settings live = .ok session) (countable : session.Countable requests) :
    ∃ last left, session.run requests = .ok (last, left) := by
  have fresh : session.Requested live := .start started bounded
  obtain ⟨ready, taken, requested⟩ := fresh.exists_ready requests
  suffices ends : ∃ last left, ready.archiveAll = .ok ((), last) ∧ last.finish = .ok left by
    obtain ⟨last, left, archives, finished⟩ := ends
    refine ⟨last, left, ?_⟩
    simp only [run, taken, archives, finished, bind, Except.bind, pure, Except.pure]
  cases origin : ready.dump with
  | none =>
    refine ⟨ready, .ok none, ?_, ?_⟩
    · rw [archiveAll, act, origin]
    · rw [finish, origin]
  | some asked =>
    obtain ⟨asks, rfl⟩ := requested asked origin
    obtain ⟨screened, screening, screens⟩ := asks.exists_screen closed
    have vetted := screens.vetted asks closed
    obtain ⟨dump, archived⟩ :=
      vetted.exists_archiveScreened (countable ready asked screened taken origin screening)
    obtain ⟨underway, idle⟩ := vetted.archiveScreened archived
    obtain ⟨outcome, done⟩ := Dump.exists_finish idle (Dump.nodup_names underway.recorded.pages)
    refine ⟨⟨some dump⟩, outcome.map some, ?_, ?_⟩
    · simp only [archiveAll, act, origin, Dump.archiveAll_eq, screening, archived, bind,
        Except.bind, pure, Except.pure]
    · simp only [finish, done, bind, Except.bind, pure, Except.pure]

end Session
end FrozenHeap
