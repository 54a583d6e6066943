import FrozenHeap.Proofs.Draft.Allocation
import FrozenHeap.Proofs.Recording.Truthful

namespace FrozenHeap

/-- All copies are in the closed region. -/
def Unopened (copies : Copies) : Prop :=
  ∀ (object : ObjectId) (place : Place), copies[object]? = some place → place.region = .closed

theorem Walk.Runs.unopened {live : Live} {screening : Screening} {stack last : List ObjectId}
    {walk final : Walk} (runs : Runs live screening .closed stack walk last final)
    (unopened : Unopened walk.copies) : Unopened final.copies := by
  refine runs.preserves (fun _ walk => Unopened walk.copies) ?_ unopened
  intro _ _ _ _ step unopened
  cases step with
  | again => exact unopened
  | cached => exact unopened
  | laid _ _ _ _ _ laid =>
    intro object other
    simp only [copy, list, meet, Std.ExtTreeMap.getElem?_insert]
    split
    · intro same
      cases same
      exact (Draft.allocate_ok laid).2.1
    · exact unopened object other

namespace Recording

/-- How an attempt to archive a static field ends, and what it leaves. -/
inductive Attempt (live : Live) (screening : Screening) (recording : Recording) (round : Round)
    (ofClass : ClassId) (offset : UInt32) (region : Region) : Outcome Entry → Recording → Prop where
  /-- There is no such field. -/
  | missing {name : String} (missing : live.static? ofClass offset = none) :
      Attempt live screening recording round ofClass offset region (.error (.unresolvedClass name))
        recording
  /-- The field does not refer to an object. -/
  | plain {slot : Slot} {entry : Entry} {ledger : Ledger}
      (value : live.static? ofClass offset = some slot) (nowhere : ∀ root, slot ≠ .ref root)
      (here : entry.offset = offset)
      (added : recording.ledger.addEntry round.root entry = .ok ledger) :
      Attempt live screening recording round ofClass offset region (.ok entry)
        { recording with ledger := ledger }
  /-- The graph behind the field is not copied. -/
  | refused {root : ObjectId} {failure : Failure} {middle : Recording}
      (value : live.static? ofClass offset = some (.ref root))
      (copying : recording.copyGraph round live screening root region =
        .ok (.error failure, middle)) :
      Attempt live screening recording round ofClass offset region (.error failure) middle
  /-- The copies differ from the live graph. -/
  | differs {root : ObjectId} {place : Place} {failure : Failure} {middle : Recording}
      (value : live.static? ofClass offset = some (.ref root))
      (copying : recording.copyGraph round live screening root region = .ok (.ok place, middle))
      (compared : middle.compare live root place = .ok (.error failure)) :
      Attempt live screening recording round ofClass offset region (.error failure) middle
  /-- The graph behind the field is copied, and the field is entered. -/
  | copied {root : ObjectId} {place : Place} {middle compared : Recording} {entry : Entry}
      {ledger : Ledger} (value : live.static? ofClass offset = some (.ref root))
      (copying : recording.copyGraph round live screening root region = .ok (.ok place, middle))
      (compares : middle.compare live root place = .ok (.ok compared))
      (here : entry.offset = offset)
      (added : middle.ledger.addEntry round.root entry = .ok ledger) :
      Attempt live screening recording round ofClass offset region (.ok entry)
        { compared with ledger := ledger }

/-- The round in progress is one for this root, which has a page. -/
structure Headed (recording : Recording) (root : ClassId) : Prop where
  rooted : recording.Rooted root
  paged : (recording.ledger.page? root).isSome = true

variable {live : Live} {screening : Screening} {recording after : Recording} {round : Round}
  {ofClass : ClassId} {offset : UInt32} {region : Region} {outcome : Outcome Entry}
  {root : ClassId}

theorem attempt_of_archiveStatic (current : recording.current = some round)
    (done : recording.archiveStatic live screening ofClass offset region = .ok (outcome, after)) :
    Attempt live screening recording round ofClass offset region outcome after := by
  simp only [archiveStatic, current] at done
  obtain ⟨shape, _, done⟩ := bind_eq_ok_iff.mp done
  split at done
  · rename_i missing
    cases done
    exact .missing missing
  · rename_i word value
    obtain ⟨ledger, added, same⟩ := bind_eq_ok_iff.mp done
    cases same
    exact .plain value (by simp) rfl added
  · rename_i value
    obtain ⟨ledger, added, same⟩ := bind_eq_ok_iff.mp done
    cases same
    exact .plain value (by simp) rfl added
  · rename_i object value
    obtain ⟨⟨copied, middle⟩, copying, done⟩ := bind_eq_ok_iff.mp done
    cases copied with
    | error failure =>
      cases done
      exact .refused value copying
    | ok place =>
      obtain ⟨compared, comparing, done⟩ := bind_eq_ok_iff.mp done
      cases compared with
      | error failure =>
        cases done
        exact .differs value copying comparing
      | ok compared =>
        obtain ⟨narrow, _, done⟩ := bind_eq_ok_iff.mp done
        obtain ⟨ledger, added, same⟩ := bind_eq_ok_iff.mp done
        cases same
        rw [Intact.compare_ok comparing] at added
        exact .copied value copying comparing rfl added

variable {tiles : List Tile} (intact : recording.Intact live.classNames live.portrait? tiles)
  (current : recording.current = some round)
include intact current

theorem Intact.entered_copyGraph (headed : recording.Headed round.root) {object : ObjectId}
    {outcome : Outcome Place}
    (done : recording.copyGraph round live screening object region = .ok (outcome, after)) :
    after.Headed round.root ∧ ∀ other place,
      after.ledger.Entered other place ↔ recording.ledger.Entered other place := by
  obtain ⟨_, _, rooted, ledger⟩ := intact.grows_copyGraph current done
  rcases ledger with same | ⟨met, _, same⟩
  · exact ⟨⟨rooted, same ▸ headed.paged⟩, fun _ _ => by rw [same]⟩
  · refine ⟨⟨rooted, ?_⟩, fun _ _ => ?_⟩
    · rw [same, Ledger.addClasses, Ledger.isSome_page?_modify]
      exact headed.paged
    · rw [same, Ledger.addClasses, Ledger.entered_modify]
      exact Page.entries_foldl_addClass met

/-- An attempt that succeeds enters its field; no attempt enters anything else. -/
theorem Attempt.entered (headed : recording.Headed round.root)
    (attempt : Attempt live screening recording round ofClass offset region outcome after) :
    after.Headed round.root ∧ ∀ other place, after.ledger.Entered other place ↔
      recording.ledger.Entered other place ∨
        (∃ entry, outcome = .ok entry) ∧ other = round.root ∧ place = offset := by
  have adds {ledger later : Ledger} {entry : Entry} (here : entry.offset = offset)
      (paged : (ledger.page? round.root).isSome = true)
      (added : ledger.addEntry round.root entry = .ok later) :
      (later.page? round.root).isSome = true ∧ ∀ other place, later.Entered other place ↔
        ledger.Entered other place ∨ other = round.root ∧ place = offset := by
    refine ⟨?_, fun other place => ?_⟩
    · rw [Ledger.addEntry_ok added, Ledger.isSome_page?_modify]
      exact paged
    · rw [← here, Ledger.entered_addEntry paged added]
  cases attempt with
  | missing => exact ⟨headed, by simp⟩
  | plain _ _ here added =>
    obtain ⟨paged, entered⟩ := adds here headed.paged added
    exact ⟨⟨headed.rooted, paged⟩, by simp [entered]⟩
  | refused _ copying =>
    obtain ⟨still, entered⟩ := intact.entered_copyGraph current headed copying
    exact ⟨still, by simp [entered]⟩
  | differs _ copying =>
    obtain ⟨still, entered⟩ := intact.entered_copyGraph current headed copying
    exact ⟨still, by simp [entered]⟩
  | copied _ copying compares here added =>
    obtain ⟨still, entered⟩ := intact.entered_copyGraph current headed copying
    obtain ⟨paged, gained⟩ := adds here still.paged added
    rw [Intact.compare_ok compares]
    exact ⟨⟨still.rooted, paged⟩, by simp [gained, entered]⟩

/-- Copying a graph into the closed region makes no open copies. -/
theorem Intact.unopened_copyGraph (unopened : Unopened recording.copies) {object : ObjectId}
    {outcome : Outcome Place}
    (done : recording.copyGraph round live screening object .closed = .ok (outcome, after)) :
    Unopened after.copies := by
  cases outcome with
  | error failure =>
    obtain ⟨walk, failed, rfl⟩ := copyGraph_error done
    rw [(intact.failed current (fun _ listed => listed) failed).1]
    exact unopened
  | ok place =>
    obtain ⟨walk, draft, walked, _, rfl, _⟩ := copyGraph_ok done
    exact (Walk.runs_of_advance_ok walked).unopened unopened

/-- Attempts for the closed region make no open copies. -/
theorem Attempt.unopened (unopened : Unopened recording.copies)
    (attempt : Attempt live screening recording round ofClass offset .closed outcome after) :
    Unopened after.copies := by
  cases attempt with
  | missing => exact unopened
  | plain => exact unopened
  | refused _ copying => exact intact.unopened_copyGraph current unopened copying
  | differs _ copying => exact intact.unopened_copyGraph current unopened copying
  | copied _ copying compares =>
    have kept := intact.unopened_copyGraph current unopened copying
    rw [Intact.compare_ok compares]
    exact kept

end Recording
end FrozenHeap
