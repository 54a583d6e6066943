import FrozenHeap.Proofs.Dump.Vetting
import FrozenHeap.Proofs.Session

/-! Agreement. Screening and recording walk the heap each in its own way. Yet what passes the
screening is archived, unless its region overflows, and nothing else is, whatever the order of
the requests. -/

namespace FrozenHeap

namespace Session

variable {session ready after : Session} {live : Live} {settings : Settings} {dump : Dump}

/-- A session on a heap, which has only taken requests. -/
def Requested (live : Live) (session : Session) : Prop :=
  ∀ dump, session.dump = some dump → dump.Requested ∧ dump.live = live

theorem Requested.start (started : Session.start settings live = .ok session)
    (bounded : settings.Bounded) : session.Requested live :=
  fun _ here => Dump.Requested.start (start_of_dump started here) bounded

private theorem Requested.exists_register (requested : session.Requested live)
    (request : Registration) :
    ∃ after, session.register request = .ok after ∧ after.Requested live := by
  cases here : session.dump with
  | none =>
    refine ⟨session, ?_, requested⟩
    cases request <;> simp only [register, nominate, nominateWhole, act, here] <;> rfl
  | some dump =>
    obtain ⟨taken, heap⟩ := requested dump here
    cases request with
    | field className fieldName region =>
      refine ⟨⟨some (dump.nominate className fieldName region).2⟩, ?_, fun later same => ?_⟩
      · simp only [register, nominate, act, here]
        rfl
      · cases same
        refine ⟨taken.nominate className fieldName region, ?_⟩
        rw [← heap, Dump.nominate]
        split <;> rfl
    | whole name =>
      refine ⟨⟨some (dump.nominateWhole name).2⟩, ?_, fun later same => ?_⟩
      · simp only [register, nominateWhole, act, here]
        rfl
      · cases same
        refine ⟨taken.nominateWhole name, ?_⟩
        rw [← heap, Dump.nominateWhole]
        split <;> rfl

theorem Requested.exists_ready (requested : session.Requested live)
    (requests : List Registration) :
    ∃ ready, requests.foldlM register session = .ok ready ∧ ready.Requested live := by
  induction requests generalizing session with
  | nil => exact ⟨session, rfl, requested⟩
  | cons request rest ih =>
    obtain ⟨next, first, taken⟩ := requested.exists_register request
    obtain ⟨ready, done, kept⟩ := ih taken
    exact ⟨ready, by rw [List.foldlM_cons, first]; exact done, kept⟩

/-- What a session archives is what its dump enters, as a page has the name of its class. -/
theorem archived_iff_entered (here : session.dump = some dump)
    (recorded : dump.recording.Truthful live) {name : String} {ofClass : ClassId}
    (named : live.classNamed? name = some ofClass) {offset : UInt32} :
    session.Archived [name] ofClass offset ↔ dump.recording.ledger.Entered ofClass offset := by
  have pages := pages_eq here
  constructor
  · rintro ⟨page, member, owner, _, entered⟩
    exact ⟨page, Array.mem_toList_iff.mp (pages ▸ member), owner, entered⟩
  · rintro ⟨page, member, owner, entered⟩
    obtain ⟨loaded, present, title⟩ := (recorded.pages page member).named
    have again := Live.classNamed?_of_getElem? present
    rw [title, owner] at again
    exact ⟨page, pages ▸ Array.mem_toList_iff.mpr member, owner,
      List.mem_singleton.mpr (Live.name_inj again named), entered⟩

/-- Screening and recording agree. A nomination that passes the screening has one turn, where it is
never refused: it ends in an entry, or overflows its region if the objects behind its field that
have no copies yet do not find room there. So a nominated field of a class that is not archived
whole is archived exactly if it passed the screening and found room in its turn. -/
theorem archived_iff_preservable (closed : live.Closed) (bounded : settings.Bounded)
    (started : start settings live = .ok session) (requests : List Registration) :
    ∃ ready, requests.foldlM register session = .ok ready ∧ ∀ dump, ready.dump = some dump →
      ∃ screened, dump.screen = .ok screened ∧
        (∀ index nomination turn, screened.nominations[index]? = some nomination →
          nomination.isPreservable = true → screened.Turn index turn →
            ∃ field outcome recording, nomination.resolved = some field ∧
              turn.recording.archiveNomination live screened.screening nomination =
                .ok (outcome, recording) ∧
              HingesOn (turn.recording.Overfills live nomination.region field) nomination.region
                turn.recording.draft.capacity outcome) ∧
        (screened.workload < UInt64.size → ∃ after, ready.archiveAll = .ok ((), after)) ∧
        ∀ after, ready.archiveAll = .ok ((), after) →
          ∀ index nomination ofClass field, screened.nominations[index]? = some nomination →
            live.Declares nomination.className nomination.fieldName ofClass field →
            nomination.className ∉ dump.wholeNames →
              (nomination.isPreservable = false →
                ¬ after.Archived [nomination.className] ofClass field.offset) ∧
              (nomination.isPreservable = true →
                ∃ turn, (∀ other, screened.Turn index other ↔ other = turn) ∧
                  (after.Archived [nomination.className] ofClass field.offset ↔
                    ¬ turn.recording.Overfills live nomination.region
                      (ofClass, field.offset))) := by
  have fresh : session.Requested live := .start started bounded
  obtain ⟨ready, taken, requested⟩ := fresh.exists_ready requests
  refine ⟨ready, taken, fun dump here => ?_⟩
  obtain ⟨asked, rfl⟩ := requested dump here
  obtain ⟨screened, done, screens⟩ := asked.exists_screen closed
  refine ⟨screened, done, fun index nomination turn found => screens.hinges asked closed found,
    fun small => ?_, fun after archived index nomination ofClass field found declares apart => ?_⟩
  · obtain ⟨last, archived⟩ := (screens.vetted asked closed).exists_archiveScreened small
    refine ⟨⟨some last⟩, ?_⟩
    simp only [archiveAll, act, here, Dump.archiveAll_eq, done, archived, bind, Except.bind, pure,
      Except.pure]
  · obtain ⟨last, there, changed⟩ := exists_change here archived
    obtain ⟨_, archived, same⟩ := bind_eq_ok_iff.mp changed
    cases same
    obtain ⟨_, recorded⟩ := Dump.truthful_archiveAll asked.ready.underway.recorded archived
    rw [Dump.archiveAll_eq, done] at archived
    rw [archived_iff_entered there recorded declares.1]
    exact ⟨screens.not_entered asked closed found archived declares apart,
      screens.exists_turn asked closed found archived declares apart⟩

/-- Of the ring, the reference is archived and found room, and the number is not archived. -/
theorem archived_iff_preservable_ring : ∃ session ready dump screened after,
    start {} .ring = .ok session ∧
    [Registration.field "Node" "first" .closed, .field "Node" "count" .opened].foldlM register
      session = .ok ready ∧
    ready.dump = some dump ∧ dump.screen = .ok screened ∧ ready.archiveAll = .ok ((), after) ∧
    after.Archived ["Node"] ⟨0⟩ 16 ∧ ¬ after.Archived ["Node"] ⟨0⟩ 24 ∧
    ∃ turn, screened.Turn 0 turn ∧ ¬ turn.recording.Overfills .ring .closed (⟨0⟩, 16) := by
  obtain ⟨session, started, ran⟩ : ∃ session, start {} .ring = .ok session ∧
      (([Registration.field "Node" "first" .closed, .field "Node" "count" .opened].foldlM register
        session).toOption.any fun ready => ready.dump.any fun dump =>
          (dump.wholeNames == #[] && dump.screen.toOption.any fun screened =>
            screened.nominations == #[⟨"Node", "first", .closed, some (⟨0⟩, 16), true⟩,
              ⟨"Node", "count", .opened, none, false⟩]) &&
          ready.archiveAll.toOption.any fun left => left.2.pages.any fun page =>
            page.ofClass == ⟨0⟩ && page.name == "Node" && page.entries.any (·.offset == 16)) =
              true :=
    ⟨_, rfl, by decide +kernel⟩
  obtain ⟨ready, taken, agree⟩ := archived_iff_preservable Live.closed_ring (by decide) started
    [Registration.field "Node" "first" .closed, .field "Node" "count" .opened]
  obtain ⟨_, again, ran⟩ := any_toOption_iff.mp ran
  rw [taken] at again
  cases again
  obtain ⟨dump, here, ran⟩ := (Option.any_eq_true _ _).mp ran
  obtain ⟨screened, done, _, _, agree⟩ := agree dump here
  simp only [Bool.and_eq_true, beq_iff_eq] at ran
  obtain ⟨⟨none_, judged⟩, archives⟩ := ran
  obtain ⟨_, again, judged⟩ := any_toOption_iff.mp judged
  rw [done] at again
  cases again
  have judged := eq_of_beq judged
  obtain ⟨⟨_, after⟩, archived, listed⟩ := any_toOption_iff.mp archives
  obtain ⟨page, member, listed⟩ := List.any_eq_true.mp listed
  simp only [Bool.and_eq_true, beq_iff_eq] at listed
  obtain ⟨⟨owner, title⟩, listed⟩ := listed
  obtain ⟨entry, present, offset⟩ := Array.any_eq_true'.mp listed
  have first : after.Archived ["Node"] ⟨0⟩ 16 :=
    ⟨page, member, owner, by simp [title], entry, present, eq_of_beq offset⟩
  have absent : "Node" ∉ dump.wholeNames := none_ ▸ Array.not_mem_empty _
  have reference : Live.ring.Declares "Node" "first" ⟨0⟩ ⟨"first", 16, true⟩ :=
    ⟨by decide +kernel, _, rfl, by decide +kernel⟩
  have number : Live.ring.Declares "Node" "count" ⟨0⟩ ⟨"count", 24, false⟩ :=
    ⟨by decide +kernel, _, rfl, by decide +kernel⟩
  obtain ⟨_, passes⟩ := agree after archived 0 _ _ _ (by rw [judged]; rfl) reference absent
  obtain ⟨turn, turns, decides⟩ := passes rfl
  obtain ⟨fails, _⟩ := agree after archived 1 _ _ _ (by rw [judged]; rfl) number absent
  exact ⟨session, ready, dump, screened, after, started, taken, here, done, archived, first,
    fails rfl, turn, (turns turn).mpr rfl, decides.mp first⟩

end Session
end FrozenHeap
