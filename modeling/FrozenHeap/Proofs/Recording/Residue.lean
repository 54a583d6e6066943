import FrozenHeap.Proofs.Ledger
import FrozenHeap.Proofs.Recording.Faithful
import FrozenHeap.Proofs.Recording.Visits

/-! What a failed comparison leaves behind. The comparison comes when the walk is over, its copies
are linked and its classes are listed, and none of this is taken back; only the entry is missing. -/

namespace FrozenHeap

theorem Live.mem_listings {live : Live} {objects : List ObjectId} {ofClass : ClassId} :
    ofClass ∈ (objects.filterMap live.listing?).map (·.1) ↔
      ∃ object ∈ objects, ∃ seen, live.portrait? object = some seen ∧ seen.ofClass = ofClass := by
  simp [listing?]

namespace Recording

/-- What a walk from a root left in a recording, short of an entry. -/
structure Residue (live : Live) (region : Region) (round : Round) (root : ObjectId)
    (before after : Recording) : Prop where
  /-- Every object visited has a copy, next to those that had one before. -/
  copies : ∀ object, object ∈ after.copies ↔
    object ∈ before.copies ∨ live.Visits round.seen root object
  kept : ∀ (object : ObjectId) (place : Place), before.copies[object]? = some place →
    after.copies[object]? = some place
  /-- The new copies take up room in the images. -/
  images : ∃ copied : List ObjectId, copied.Nodup ∧
    (∀ object, object ∈ copied ↔
      live.Visits round.seen root object ∧ object ∉ before.copies) ∧
    ∀ other, (after.draft.image other).words.size = (before.draft.image other).words.size +
      if other = region then (copied.map live.extent).sum else 0
  /-- The page of the root lists the classes of the objects visited, and is otherwise as before. -/
  page : ∀ page, before.ledger.page? round.root = some page →
    ∃ classes, after.ledger.page? round.root = some { page with classes := classes } ∧
      ∀ ofClass, ofClass ∈ classes.toList.map (·.1) ↔ page.hasClass ofClass = true ∨
        ∃ object seen, live.Visits round.seen root object ∧ live.portrait? object = some seen ∧
          seen.ofClass = ofClass
  others : ∀ ofClass, ofClass ≠ round.root →
    after.ledger.page? ofClass = before.ledger.page? ofClass

/-- The copies, the images and the pages are as before. -/
structure Untouched (before after : Recording) : Prop where
  copies : after.copies = before.copies
  images : ∀ region, after.draft.image region = before.draft.image region
  ledger : after.ledger = before.ledger

/-- An object has a copy, and its class is listed on the page of a root. -/
def Covers (recording : Recording) (live : Live) (root : ClassId) (object : ObjectId) : Prop :=
  object ∈ recording.copies ∧ ∀ page seen, recording.ledger.page? root = some page →
    live.portrait? object = some seen → page.hasClass seen.ofClass = true

variable {live : Live} {screening : Screening} {region : Region} {recording : Recording}
  {round : Round} {root : ObjectId} {walk : Walk} {draft : Draft}

private theorem residue_adopt
    (log : Walk.Log live region recording.draft recording.copies round.seen walk)
    (met : ∀ object, object ∈ walk.met ↔ live.Visits round.seen root object)
    (linked : Walk.patchLinks walk.copies walk.draft walk.links.toList = .ok draft) :
    Residue live region round root recording (recording.adopt round walk draft) where
  copies object := by
    rw [← met]
    exact log.mem_copies
  kept object place found := by
    refine (log.undoable.kept object fun copied => ?_).trans found
    rw [log.undoable.copied object copied] at found
    cases found
  images := by
    refine ⟨walk.copied.toList, ?_, fun object => ?_, fun other => ?_⟩
    · rw [log.copied]
      exact log.distinct.filter _
    · rw [log.copied, List.mem_filter, Array.mem_toList_iff, met, Option.isNone_iff_eq_none,
        ← Option.not_isSome_iff_eq_none, ← Std.ExtTreeMap.mem_iff_isSome_getElem?]
    · show (draft.image other).words.size = _
      rw [(Draft.rewrites_patchLinks linked).size, log.sizes]
  page page found := by
    refine ⟨(walk.classes.toList.foldl (·.addClass ·) page).classes, ?_, fun ofClass => ?_⟩
    · show (recording.ledger.addClasses round.root walk.classes.toList).page? round.root = _
      rw [Ledger.addClasses, Ledger.page?_modify, if_pos rfl, found, Option.map_some,
        Page.foldl_addClass_eq]
    · have listed := Page.hasClass_foldl_addClass walk.classes.toList page ofClass
      rw [log.classes, Live.mem_listings] at listed
      rw [← Page.hasClass_iff, log.classes, listed]
      simp only [Array.mem_toList_iff, met, exists_and_left]
  others ofClass apart := by
    show (recording.ledger.addClasses round.root walk.classes.toList).page? ofClass = _
    rw [Ledger.addClasses, Ledger.page?_modify, if_neg apart]

/-- A finished walk leaves everything as it was if there was nothing to copy and nothing to list. -/
theorem untouched_adopt
    (log : Walk.Log live region recording.draft recording.copies round.seen walk)
    (linked : Walk.patchLinks walk.copies walk.draft walk.links.toList = .ok draft)
    (covers : ∀ object ∈ walk.met, recording.Covers live round.root object) :
    recording.Untouched (recording.adopt round walk draft) := by
  have none : walk.copied.toList = [] := by
    rw [log.copied, List.filter_eq_nil_iff]
    intro object member
    obtain ⟨place, known⟩ := mem_copies_iff.mp (covers object (Array.mem_toList_iff.mp member)).1
    simp [known]
  obtain ⟨unlinked, still⟩ := log.still none
  constructor
  · apply Std.ExtTreeMap.ext_getElem?
    intro object
    refine log.undoable.kept object fun copied => ?_
    rw [← Array.mem_toList_iff, none] at copied
    cases copied
  · intro other
    rw [unlinked, still] at linked
    cases linked
    rfl
  · show recording.ledger.addClasses round.root walk.classes.toList = recording.ledger
    unfold Ledger.addClasses
    refine Ledger.modify_eq_self fun page found => Page.foldl_addClass_eq_self
      fun ofClass listed => ?_
    rw [log.classes, Live.mem_listings] at listed
    obtain ⟨object, member, seen, here, rfl⟩ := listed
    exact (covers object (Array.mem_toList_iff.mp member)).2 page seen found here

/-- A residue is none if everything visited was known before. -/
theorem Residue.covers {after : Recording}
    (residue : Residue live region round root recording after)
    (untouched : recording.Untouched after) {object : ObjectId}
    (visits : live.Visits round.seen root object) : recording.Covers live round.root object := by
  refine ⟨?_, fun page seen found here => ?_⟩
  · rw [← untouched.copies]
    exact (residue.copies object).mpr (.inr visits)
  · obtain ⟨classes, same, listed⟩ := residue.page page found
    rw [untouched.ledger, found] at same
    have known := (listed seen.ofClass).mpr (.inr ⟨object, seen, visits, here, rfl⟩)
    rw [Page.hasClass_iff, congrArg Page.classes (Option.some.inj same)]
    exact known

/-- A static field whose comparison fails leaves all that its walk did, short of the entry. So
nothing is left behind only where everything on the walk had its copy, and its class was
listed, before. -/
theorem residue_of_mismatch {ofClass : ClassId} {offset : UInt32} {failure : Failure}
    {after : Recording} (done : recording.archiveStatic live screening ofClass offset region =
      .ok (.error failure, after)) (mismatch : failure.isMismatch = true) :
    ∃ round root, recording.current = some round ∧
      live.static? ofClass offset = some (.ref root) ∧ recording.verifies = true ∧
      Residue live region round root recording after ∧
      (recording.Untouched after ↔
        ∀ object, live.Visits round.seen root object →
          recording.Covers live round.root object) := by
  unfold archiveStatic at done
  split at done
  · cases done
  rename_i round current
  obtain ⟨shape, _, done⟩ := bind_eq_ok_iff.mp done
  split at done
  · cases done
    cases mismatch
  · obtain ⟨_, _, same⟩ := bind_eq_ok_iff.mp done
    cases same
  · obtain ⟨_, _, same⟩ := bind_eq_ok_iff.mp done
    cases same
  rename_i root value
  obtain ⟨⟨copied, middle⟩, copying, done⟩ := bind_eq_ok_iff.mp done
  cases copied with
  | error other =>
    cases done
    obtain ⟨walk, failed, _⟩ := copyGraph_error copying
    obtain ⟨_, _, _, stop⟩ := Walk.runs_of_advance_error failed
    rw [stop.not_isMismatch] at mismatch
    cases mismatch
  | ok place =>
    obtain ⟨walk, draft, walked, linked, rfl, _⟩ := copyGraph_ok copying
    obtain ⟨log, met⟩ := Walk.log_of_advance walked
    obtain ⟨compared, comparing, done⟩ := bind_eq_ok_iff.mp done
    cases compared with
    | ok compared =>
      obtain ⟨_, _, done⟩ := bind_eq_ok_iff.mp done
      obtain ⟨_, _, same⟩ := bind_eq_ok_iff.mp done
      cases same
    | error other =>
      cases done
      have verifies : recording.verifies = true := by
        refine Decidable.byContradiction fun unasked => ?_
        have silent : ¬ (recording.adopt round walk draft).verifies = true := unasked
        rw [compare, if_neg silent] at comparing
        cases comparing
      have residue := residue_adopt log met linked
      refine ⟨round, root, current, value, verifies, residue, fun untouched _ visits =>
        residue.covers untouched visits, fun covers => untouched_adopt log linked ?_⟩
      exact fun object member => covers object ((met object).mp member)

/-- The ring after one of its nodes has changed; its field now holds a leaf that refers to it. -/
def drifted : Live where
  classes := #[{
      shape := Live.ring.classes[0].shape
      statics := #[.ref ⟨2⟩, .bits 2]
      sized := rfl }, .ofShape (.named "Leaf" .plain)]
  objects := #[⟨⟨0⟩, #[.ref ⟨1⟩, .bits 8, .null]⟩, ⟨⟨0⟩, #[.ref ⟨0⟩, .ref ⟨1⟩]⟩, ⟨⟨1⟩, #[.ref ⟨0⟩]⟩]
  distinct := by decide
  classified := by decide
  numbered := by decide

/-- A recording of the ring before it changed. -/
def beforeDrift : Run Recording :=
  match Draft.start {} with
  | .error _ => .error .precondition
  | .ok draft => do
    let begun ← (start draft true).startRound .ring ⟨0⟩ false
    return (← begun.archiveStatic .ring (.start []) ⟨0⟩ 16 .opened).2

theorem residue_of_mismatch_drifted : ∃ recording failure after, beforeDrift = .ok recording ∧
    recording.archiveStatic drifted (.start []) ⟨0⟩ 16 .opened = .ok (.error failure, after) ∧
    failure.isMismatch = true ∧ (∃ round, Residue drifted .opened round ⟨2⟩ recording after) ∧
    ¬ recording.Untouched after := by
  have runs : (beforeDrift.bind fun recording => do
      match ← recording.archiveStatic drifted (.start []) ⟨0⟩ 16 .opened with
      | (.error failure, after) => return decide (failure.isMismatch = true ∧
          ⟨2⟩ ∉ recording.copies ∧ ⟨2⟩ ∈ after.copies)
      | (.ok _, _) => return false).toOption = some true := by decide +kernel
  cases first : beforeDrift with
  | error breach =>
    rw [first] at runs
    cases runs
  | ok recording =>
    rw [first] at runs
    cases second : recording.archiveStatic drifted (.start []) ⟨0⟩ 16 .opened with
    | error breach =>
      simp only [Except.bind, second, bind] at runs
      cases runs
    | ok result =>
      obtain ⟨outcome, after⟩ := result
      simp only [Except.bind, second, bind, pure, Except.pure] at runs
      cases outcome with
      | ok _ => cases runs
      | error failure =>
        obtain ⟨mismatch, absent, present⟩ := of_decide_eq_true (Option.some.inj runs)
        obtain ⟨round, root, _, value, _, residue, _⟩ := residue_of_mismatch second mismatch
        cases value
        exact ⟨recording, failure, after, rfl, second, mismatch, ⟨round, residue⟩,
          fun untouched => absent (untouched.copies ▸ present)⟩

end Recording
end FrozenHeap
