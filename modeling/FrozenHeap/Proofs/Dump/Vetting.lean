import FrozenHeap.Proofs.Dump.Completion

namespace FrozenHeap.Dump

/-- A dump that only took requests: nothing has been found out yet, and nothing is
nominated twice. -/
structure Requested (dump : Dump) : Prop where
  ready : dump.Ready
  unscreened : dump.screened = false
  coherent : dump.screening.Coherent dump.live
  fresh : ∀ nomination ∈ dump.nominations.toList, nomination.Fresh
  distinct : (dump.nominations.toList.map Nomination.names).Nodup
  once : dump.wholeNames.toList.Nodup

/-- What the screening of a dump leads to. -/
structure Screened (dump screened : Dump) : Prop where
  live : screened.live = dump.live
  recording : screened.recording = dump.recording
  wholes : screened.wholes = dump.wholeNames.toList.filterMap dump.live.classNamed?
  judged : List.Forall₂ (screened.screening.Judged dump.live) dump.nominations.toList
    screened.nominations.toList

variable {dump before after screened : Dump} {index : Nat} {nomination : Nomination}

theorem Ready.congr (ready : before.Ready) (live : after.live = before.live)
    (recording : after.recording = before.recording) : after.Ready where
  underway := ⟨rfl, by rw [recording, live]; exact ready.underway.recorded⟩
  idle := recording ▸ ready.idle
  blank := recording ▸ ready.blank
  unopened := recording ▸ ready.unopened
  unspent := recording ▸ ready.unspent

namespace Requested

theorem start {settings : Settings} {live : Live} (started : Dump.start settings live = .ok dump)
    (bounded : settings.Bounded) : dump.Requested ∧ dump.live = live := by
  unfold Dump.start at started
  split at started
  · cases started
  · rename_i draft laid
    cases started
    refine ⟨?_, rfl⟩
    constructor
    case ready =>
      constructor
      case underway => exact ⟨rfl, .start laid bounded settings.verify⟩
      case idle => rfl
      case blank => exact fun _ _ => Ledger.not_entered_empty
      case unopened =>
        intro _ _ copied
        simp [Recording.start] at copied
      case unspent => rfl
    case unscreened => rfl
    case coherent => exact .start _ _
    case fresh => exact fun _ listed => absurd listed List.not_mem_nil
    case distinct => exact .nil
    case once => exact .nil

theorem nominate (requested : dump.Requested) (className fieldName : String) (region : Region) :
    (dump.nominate className fieldName region).2.Requested := by
  unfold Dump.nominate
  split
  · exact requested
  · rename_i unknown
    refine { requested with
      ready := requested.ready.congr rfl rfl
      fresh := fun nomination listed => ?_
      distinct := ?_ }
    · rcases Array.mem_push.mp (Array.mem_toList_iff.mp listed) with old | rfl
      · exact requested.fresh nomination (Array.mem_toList_iff.mpr old)
      · exact ⟨rfl, rfl⟩
    · simp only [Array.toList_push, List.map_append, List.map_cons, List.map_nil]
      refine List.nodup_append.mpr ⟨requested.distinct, by simp, ?_⟩
      rintro names listed other added rfl
      obtain ⟨nomination, present, rfl⟩ := List.mem_map.mp listed
      refine unknown (Array.find?_isSome.mpr ⟨nomination, Array.mem_toList_iff.mp present, ?_⟩)
      simpa [Nomination.names, Nomination.of] using added

theorem nominateWhole (requested : dump.Requested) (name : String) :
    (dump.nominateWhole name).2.Requested := by
  unfold Dump.nominateWhole
  split
  · exact requested
  · rename_i unknown
    refine { requested with ready := requested.ready.congr rfl rfl, once := ?_ }
    simp only [Array.toList_push]
    refine List.nodup_append.mpr ⟨requested.once, by simp, ?_⟩
    rintro other listed last added rfl
    rw [List.mem_singleton] at added
    subst added
    exact unknown (Array.contains_iff_mem.mpr (Array.mem_toList_iff.mp listed))

/-- The screening of a heap without dangling references comes to an end. -/
theorem exists_screen (requested : dump.Requested) (closed : dump.live.Closed) :
    ∃ screened, dump.screen = .ok screened ∧ dump.Screened screened := by
  have loaded (ofClass : ClassId)
      (listed : ofClass ∈ dump.wholeNames.toList.filterMap dump.live.classNamed?) :
      ofClass.index < dump.live.classes.size := by
    obtain ⟨name, _, named⟩ := List.mem_filterMap.mp listed
    exact (Live.lt_of_classNamed? named).1
  obtain ⟨checked, classes, sound⟩ :=
    Screening.exists_checkClasses closed requested.coherent loaded
  obtain ⟨judged, last, fields, continued, judges⟩ := sound.checkFields closed requested.fresh
  refine ⟨{ dump with
      screening := last
      nominations := judged.toArray
      wholes := dump.wholeNames.toList.filterMap dump.live.classNamed?
      screened := true }, ?_, rfl, rfl, rfl, judges.imp fun _ _ => continued.judged.mpr⟩
  simp only [screen, requested.unscreened, classes, fields, bind, Except.bind, pure, Except.pure]
  rfl

end Requested

namespace Screened

variable (screens : dump.Screened screened)
include screens

private theorem judged_self (found : screened.nominations[index]? = some nomination) :
    screened.screening.Judged dump.live nomination nomination :=
  Screening.Judged.self_of_mem screens.judged nomination
    (Array.mem_toList_iff.mpr (Array.mem_of_getElem? found))

theorem index_eq (requested : dump.Requested) {other : Nat} {again : Nomination} {ofClass : ClassId}
    {field second : StaticField} (here : screened.nominations[index]? = some nomination)
    (there : screened.nominations[other]? = some again)
    (left : dump.live.Declares nomination.className nomination.fieldName ofClass field)
    (right : dump.live.Declares again.className again.fieldName ofClass second)
    (same : field.offset = second.offset) : index = other := by
  have distinct := requested.distinct
  rw [← Screening.names_of_judged screens.judged] at distinct
  have inside := (Array.getElem?_eq_some_iff.mp here).1
  refine (List.getElem?_inj (by simpa using inside) distinct).mp ?_
  simp only [List.getElem?_map, Array.getElem?_toList, here, there, Option.map_some]
  obtain ⟨first, second⟩ := left.names_eq right same
  exact congrArg some (Prod.ext first second)

/-- What a nomination stands for, if anything, is a static field that its names declare. -/
theorem exists_declares (found : screened.nominations[index]? = some nomination)
    {ofClass : ClassId} {offset : UInt32}
    (resolved : nomination.resolved = some (ofClass, offset)) :
    ∃ field, dump.live.Declares nomination.className nomination.fieldName ofClass field ∧
      field.offset = offset := by
  rw [(screens.judged_self found).resolved] at resolved
  obtain ⟨field, declares, _, position⟩ := Nomination.field?_eq_some_iff.mp resolved
  exact ⟨field, declares, position⟩

/-- A dump that only took requests has been vetted once it is screened. -/
theorem vetted (requested : dump.Requested) (closed : dump.live.Closed) : screened.Vetted where
  ready := requested.ready.congr screens.live screens.recording
  closed := screens.live ▸ closed
  declared index nomination ofClass offset found resolved := by
    obtain ⟨field, declares, rfl⟩ := screens.exists_declares found resolved
    rw [screens.live]
    exact ⟨(Live.lt_of_classNamed? declares.1).1, declares.exists_static⟩
  distinct index other ofClass offset left right := by
    obtain ⟨nomination, found, _, resolved⟩ := left
    obtain ⟨again, present, _, same⟩ := right
    obtain ⟨field, declares, rfl⟩ := screens.exists_declares found resolved
    obtain ⟨second, also, position⟩ := screens.exists_declares present same
    exact screens.index_eq requested found present declares also position.symm
  clears index ofClass offset offers := by
    obtain ⟨nomination, found, preservable, resolved⟩ := offers
    have judges := screens.judged_self found
    obtain ⟨field, stands, clears⟩ := judges.preservable.mp preservable
    rw [← judges.resolved, resolved] at stands
    cases stands
    exact screens.live ▸ clears
  known ofClass listed := by
    rw [screens.wholes] at listed
    obtain ⟨name, _, named⟩ := List.mem_filterMap.mp listed
    rw [screens.live]
    exact (Live.lt_of_classNamed? named).1
  once := by
    rw [screens.wholes]
    exact requested.once.filterMap fun _ _ _ left right => Live.name_inj left right

/-- A class is archived whole if its name was requested. -/
theorem mem_wholes_iff {name : String} {ofClass : ClassId}
    (named : dump.live.classNamed? name = some ofClass) :
    ofClass ∈ screened.wholes ↔ name ∈ dump.wholeNames := by
  rw [screens.wholes, List.mem_filterMap]
  constructor
  · rintro ⟨other, present, again⟩
    exact Live.name_inj named again ▸ Array.mem_toList_iff.mp present
  · exact fun asked => ⟨name, Array.mem_toList_iff.mpr asked, named⟩

/-- A class whose name was not requested is not archived whole. -/
theorem not_mem_wholes {name : String} {ofClass : ClassId}
    (named : dump.live.classNamed? name = some ofClass) (absent : name ∉ dump.wholeNames) :
    ofClass ∉ screened.wholes := fun listed => absent ((screens.mem_wholes_iff named).mp listed)

variable (requested : dump.Requested) (closed : dump.live.Closed)
  (found : screened.nominations[index]? = some nomination)
include requested closed found

/-- In its turn, a nomination that passed the screening ends in an entry, or overflows its region if
what it adds finds no room there. -/
theorem hinges {turn : Dump} (preservable : nomination.isPreservable = true)
    (turns : screened.Turn index turn) :
    ∃ field outcome recording, nomination.resolved = some field ∧
      turn.recording.archiveNomination dump.live screened.screening nomination =
        .ok (outcome, recording) ∧
      HingesOn (turn.recording.Overfills dump.live nomination.region field) nomination.region
        turn.recording.draft.capacity outcome := by
  have vetted := screens.vetted requested closed
  obtain ⟨root, behind, due⟩ := turns.due vetted.ready
  obtain ⟨offset, resolved⟩ := due.belongs nomination found
  obtain ⟨outcome, recording, archived, hinges⟩ := due.hinges vetted found preservable resolved
  rw [screens.live] at archived hinges
  exact ⟨_, outcome, recording, resolved, archived, hinges⟩

variable {ofClass : ClassId} {field : StaticField} (done : screened.archiveScreened = .ok after)
  (declares : dump.live.Declares nomination.className nomination.fieldName ofClass field)
  (apart : nomination.className ∉ dump.wholeNames)
include done declares apart

/-- The field of a nomination that did not pass the screening is not entered, as no other nomination
is for the same field. -/
theorem not_entered (rejected : nomination.isPreservable = false) :
    ¬ after.recording.ledger.Entered ofClass field.offset := by
  intro entered
  have vetted := screens.vetted requested closed
  obtain ⟨other, again, present, passed, resolved⟩ :=
    vetted.exists_offers done (screens.not_mem_wholes declares.1 apart) entered
  obtain ⟨second, also, position⟩ := screens.exists_declares present resolved
  have one := screens.index_eq requested found present declares also position.symm
  rw [← one, found] at present
  cases present
  exact Bool.false_ne_true (rejected.symm.trans passed)

/-- A nomination that passed the screening has one turn, and its field is entered exactly if it does
not overfill its region there. -/
theorem exists_turn (preservable : nomination.isPreservable = true) :
    ∃ turn, (∀ other, screened.Turn index other ↔ other = turn) ∧
      (after.recording.ledger.Entered ofClass field.offset ↔
        ¬ turn.recording.Overfills dump.live nomination.region (ofClass, field.offset)) := by
  have vetted := screens.vetted requested closed
  have judges := screens.judged_self found
  obtain ⟨⟨owner, offset⟩, stands, _⟩ := judges.preservable.mp preservable
  have resolved := judges.resolved.trans stands
  obtain ⟨second, also, rfl⟩ := screens.exists_declares found resolved
  obtain ⟨rfl, rfl⟩ := declares.unique also
  obtain ⟨turn, turns, decides⟩ := vetted.exists_turn_entered_iff done
    (screens.not_mem_wholes declares.1 apart) found preservable resolved
  rw [screens.live] at decides
  exact ⟨turn, fun other => ⟨fun again => again.unique turns, fun same => same ▸ turns⟩, decides⟩

end Screened
end FrozenHeap.Dump
