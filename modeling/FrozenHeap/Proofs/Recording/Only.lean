import FrozenHeap.Proofs.Recording.Attempts
import FrozenHeap.Proofs.Recording.Complete

namespace FrozenHeap

namespace Draft

/-- A name of a draft was there before an object was laid out, or is that of its class. -/
theorem mem_names_laidOut {draft : Draft} {region : Region} {name other : String}
    {slots : Array Slot} (member : other ∈ (draft.laidOut region name slots).names) :
    other ∈ draft.names ∨ other = name := by
  rw [laidOut, names_modifyImage] at member
  rcases (draft.nameIndex_cases name).1 with ⟨_, same⟩ | ⟨_, same⟩
  · rw [same] at member
    exact .inl member
  · rw [same] at member
    exact Array.mem_push.mp member

theorem className_mem_of_readCopy {names : Array String} {image : Image} {index : Nat} {copy : Copy}
    (found : readCopy names image index = some copy) : copy.className ∈ names := by
  obtain ⟨word, _, found⟩ := Option.bind_eq_some_iff.mp found
  simp only at found
  split at found
  · obtain ⟨name, here, same⟩ := Option.bind_eq_some_iff.mp found
    cases same
    exact Array.mem_of_getElem? here
  · cases found

end Draft

variable {live : Live} {screening : Screening} {region : Region} {fit : String → Prop}

/-- A walk has copied objects of fit classes only, and noted fit names only. -/
structure Walk.Only (live : Live) (fit : String → Prop) (walk : Walk) : Prop where
  copies : ∀ object ∈ walk.copies, ∃ seen, live.portrait? object = some seen ∧ fit seen.shape.name
  names : ∀ name ∈ walk.draft.names, fit name
  classes : ∀ met ∈ walk.classes, fit met.2

/-- Instances that are admitted are of fit classes. -/
def Screening.Ensures (screening : Screening) (live : Live) (fit : String → Prop) : Prop :=
  ∀ object seen, live.portrait? object = some seen →
    screening.admits seen.ofClass seen.shape = true → fit seen.shape.name

namespace Walk.Only

variable {stack middle last : List ObjectId} {walk later after : Walk}

theorem step (ensures : screening.Ensures live fit)
    (step : Step live screening region stack walk middle later) (only : walk.Only live fit) :
    later.Only live fit := by
  have lists {object : ObjectId} {seen : Portrait} (found : live.portrait? object = some seen)
      (admitted : screening.admits seen.ofClass seen.shape = true) (met : ClassId × String)
      (listed : met ∈ walk.classes.push (seen.ofClass, seen.shape.name)) : fit met.2 := by
    rcases Array.mem_push.mp listed with old | rfl
    · exact only.classes met old
    · exact ensures object seen found admitted
  cases step with
  | again => exact only
  | cached found _ _ admitted => exact ⟨only.copies, only.names, lists found admitted⟩
  | @laid object seen _ _ _ _ found _ _ admitted _ laid =>
    obtain ⟨_, _, _, rfl⟩ := Draft.allocate_ok laid
    refine ⟨fun other member => ?_, fun name listed => ?_, lists found admitted⟩
    · rcases Std.ExtTreeMap.mem_insert.mp member with here | old
      · obtain rfl := Std.LawfulEqOrd.eq_of_compare here
        exact ⟨seen, found, ensures object seen found admitted⟩
      · exact only.copies other old
    · rcases Draft.mem_names_laidOut listed with old | rfl
      · exact only.names name old
      · exact ensures object seen found admitted

theorem runs (ensures : screening.Ensures live fit)
    (runs : Runs live screening region stack walk last later) (only : walk.Only live fit) :
    later.Only live fit :=
  runs.preserves (fun _ walk => walk.Only live fit) (fun _ _ _ _ next only =>
    only.step ensures next) only

end Walk.Only

/-- Objects of fit classes are copied only, and fit names recorded only. -/
structure Recording.Only (live : Live) (fit : String → Prop) (recording : Recording) : Prop where
  copies : ∀ object ∈ recording.copies,
    ∃ seen, live.portrait? object = some seen ∧ fit seen.shape.name
  names : ∀ name ∈ recording.draft.names, fit name
  classes : ∀ page ∈ recording.ledger.pages, ∀ met ∈ page.classes, fit met.2

namespace Recording

variable {recording after : Recording} {round : Round} {root : ObjectId} {ofClass : ClassId}
  {offset : UInt32}

theorem Only.copyAt? (only : recording.Only live fit) {place : Place} {copy : Copy}
    (read : recording.draft.copyAt? place = .ok (some copy)) : fit copy.className := by
  obtain ⟨inside, _, read⟩ := bind_eq_ok_iff.mp read
  split at read
  · obtain ⟨index, _, same⟩ := bind_eq_ok_iff.mp read
    have found : Draft.readCopy recording.draft.names (recording.draft.image place.region) index =
        some copy := Except.ok.inj same
    exact only.names _ (Draft.className_mem_of_readCopy found)
  · cases read

namespace Only

theorem start {settings : Settings} {draft : Draft} (started : Draft.start settings = .ok draft)
    (verifies : Bool) : (Recording.start draft verifies).Only live fit where
  copies object member := by simp [Recording.start] at member
  names name member := by
    unfold Draft.start at started
    split at started
    · cases started
    · cases started
      simp [Recording.start] at member
  classes page member := absurd member (Array.not_mem_empty _)

theorem mono {other : String → Prop} (only : recording.Only live fit)
    (wider : ∀ name, fit name → other name) : recording.Only live other where
  copies object member := by
    obtain ⟨seen, found, known⟩ := only.copies object member
    exact ⟨seen, found, wider _ known⟩
  names name member := wider name (only.names name member)
  classes page member met listed := wider _ (only.classes page member met listed)

theorem congr (only : recording.Only live fit) (copies : after.copies = recording.copies)
    (names : after.draft.names = recording.draft.names)
    (pages : ∀ page ∈ after.ledger.pages, page.classes = #[] ∨
      ∃ old ∈ recording.ledger.pages, page.classes = old.classes) : after.Only live fit where
  copies object member := only.copies object (copies ▸ member)
  names name member := only.names name (names ▸ member)
  classes page member met listed := by
    rcases pages page member with none | ⟨old, present, same⟩
    · rw [none] at listed
      exact absurd listed (Array.not_mem_empty _)
    · exact only.classes old present met (same ▸ listed)

theorem recount (only : recording.Only live fit) (totals : Totals) :
    Only live fit { recording with totals := totals } :=
  ⟨only.copies, only.names, only.classes⟩

theorem startRound (only : recording.Only live fit) {isPartial : Bool}
    (done : recording.startRound live ofClass isPartial = .ok after) : after.Only live fit := by
  obtain ⟨_, _, done⟩ := bind_eq_ok_iff.mp done
  obtain ⟨shape, _, same⟩ := bind_eq_ok_iff.mp done
  cases same
  have entered (page : Page)
      (member : page ∈ (recording.ledger.enter ofClass shape.name isPartial).pages) :
      page.classes = #[] ∨ ∃ old ∈ recording.ledger.pages, page.classes = old.classes := by
    rcases Ledger.mem_enter member with old | rfl
    · exact .inr ⟨page, old, rfl⟩
    · exact .inl rfl
  refine only.congr rfl rfl fun page member => ?_
  split at member
  · rcases Ledger.mem_markPartial member with old | ⟨old, present, rfl⟩
    · exact entered page old
    · exact entered old present
  · exact entered page member

theorem endRound (only : recording.Only live fit) {tally : Tally}
    (done : recording.endRound = .ok (tally, after)) : after.Only live fit := by
  unfold Recording.endRound at done
  split at done
  · cases done
  · split at done
    · cases done
    · cases done
      exact ⟨only.copies, only.names, only.classes⟩

theorem markPartial (only : recording.Only live fit) : recording.markPartial.Only live fit := by
  unfold Recording.markPartial
  split
  · refine only.congr rfl rfl fun page member => .inr ?_
    rcases Ledger.mem_markPartial member with old | ⟨old, present, rfl⟩
    · exact ⟨page, old, rfl⟩
    · exact ⟨old, present, rfl⟩
  · exact only

theorem addEntry (only : recording.Only live fit) {entry : Entry} {ledger : Ledger}
    (added : recording.ledger.addEntry ofClass entry = .ok ledger) :
    Only live fit { recording with ledger := ledger } := by
  refine only.congr rfl rfl fun page member => .inr ?_
  rcases Ledger.mem_addEntry added member with old | ⟨old, present, _, _, rfl⟩
  · exact ⟨page, old, rfl⟩
  · exact ⟨old, present, rfl⟩

/-- Copying a graph leaves fit classes, also when its walk fails and is given up. -/
theorem copyGraph (ensures : screening.Ensures live fit) (only : recording.Only live fit)
    {outcome : Outcome Place}
    (done : recording.copyGraph round live screening root region = .ok (outcome, after)) :
    after.Only live fit := by
  have begun : (Walk.start recording.draft recording.copies round.seen round.tally.walked).Only
      live fit := ⟨only.copies, only.names, fun _ listed => absurd listed (Array.not_mem_empty _)⟩
  cases outcome with
  | error failure =>
    obtain ⟨walk, failed, rfl⟩ := copyGraph_error done
    obtain ⟨last, final, runs, stop⟩ := Walk.runs_of_advance_error failed
    have undoable := ((Walk.Undoable.start recording.draft recording.copies round.seen
      round.tally.walked).runs runs).stop stop
    have walked := begun.runs ensures runs
    refine ⟨fun object member => only.copies object ?_, fun name member => walked.names name ?_,
      only.classes⟩
    · exact undoable.erase_copied ▸ member
    · exact stop.draft_eq ▸ member
  | ok place =>
    obtain ⟨walk, draft, walked, linked, rfl, _⟩ := copyGraph_ok done
    have finished := begun.runs ensures (Walk.runs_of_advance_ok walked)
    refine ⟨finished.copies, fun name member => finished.names name ?_,
      fun page member met listed => ?_⟩
    · exact (Draft.rewrites_patchLinks linked).names ▸ member
    · rcases Ledger.mem_modify member with old | ⟨old, present, _, rfl⟩
      · exact only.classes page old met listed
      · rcases Page.mem_classes_foldl_addClass listed with before | new
        · exact only.classes old present met before
        · exact finished.classes met (Array.mem_toList_iff.mp new)

theorem archiveStatic (ensures : screening.Ensures live fit) (only : recording.Only live fit)
    {outcome : Outcome Entry} (done : recording.archiveStatic live screening ofClass offset region =
      .ok (outcome, after)) : after.Only live fit := by
  cases current : recording.current with
  | none =>
    simp only [Recording.archiveStatic, current] at done
    cases done
  | some round =>
    cases attempt_of_archiveStatic current done with
    | missing => exact only
    | plain _ _ _ added => exact only.addEntry added
    | refused _ copying => exact only.copyGraph ensures copying
    | differs _ copying => exact only.copyGraph ensures copying
    | copied _ copying compares _ added =>
      have kept := (only.copyGraph ensures copying).addEntry added
      rw [Intact.compare_ok compares]
      exact ⟨kept.copies, kept.names, kept.classes⟩

end Only
end Recording
end FrozenHeap
