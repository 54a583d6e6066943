import FrozenHeap.Recording
import FrozenHeap.Proofs.Reach

namespace FrozenHeap
namespace Walk

/-- An object that is copied into the open region may not be met on a walk into the closed one. -/
def Barred (region : Region) (copies : Copies) (object : ObjectId) : Prop :=
  region = .closed ∧ (copies[object]?).map (·.region) = some .opened

/-- What a walk does with the first object of its stack. -/
inductive Step (live : Live) (screening : Screening) (region : Region) :
    List ObjectId → Walk → List ObjectId → Walk → Prop where
  /-- The recording saw the object before. -/
  | again {object : ObjectId} {seen : Portrait} {rest : List ObjectId} {walk : Walk}
      (found : live.portrait? object = some seen) (free : ¬ Barred region walk.copies object)
      (old : walk.seen.contains object = true) :
      Step live screening region (object :: rest) walk rest walk
  /-- The object has a copy of an earlier recording. -/
  | cached {object : ObjectId} {seen : Portrait} {rest : List ObjectId} {walk : Walk}
      {place : Place}
      (found : live.portrait? object = some seen) (free : ¬ Barred region walk.copies object)
      (fresh : walk.seen.contains object = false)
      (fit : screening.admits seen.ofClass seen.shape = true)
      (cached : walk.copies[object]? = some place) :
      Step live screening region (object :: rest) walk (targetsOf seen.slots ++ rest)
        ((walk.meet object).list (seen.ofClass, seen.shape.name))
  /-- The object is laid out. -/
  | laid {object : ObjectId} {seen : Portrait} {rest : List ObjectId} {walk : Walk} {place : Place}
      {draft : Draft} (found : live.portrait? object = some seen)
      (free : ¬ Barred region walk.copies object) (fresh : walk.seen.contains object = false)
      (fit : screening.admits seen.ofClass seen.shape = true)
      (uncached : walk.copies[object]? = none)
      (laid : walk.draft.allocate region seen.shape.name seen.slots = .ok (.ok place, draft)) :
      Step live screening region (object :: rest) walk (targetsOf seen.slots ++ rest)
        (((walk.meet object).list (seen.ofClass, seen.shape.name)).copy draft object place
          seen.slots)

/-- Why a walk fails at the first object of its stack, and what it leaves. -/
inductive Stop (live : Live) (screening : Screening) (region : Region) :
    List ObjectId → Walk → Failure → Walk → Prop where
  | barred {object : ObjectId} {seen : Portrait} {rest : List ObjectId} {walk : Walk}
      (found : live.portrait? object = some seen) (barred : Barred region walk.copies object) :
      Stop live screening region (object :: rest) walk (.closedReferencesOpen seen.shape.name) walk
  | unfit {object : ObjectId} {seen : Portrait} {rest : List ObjectId} {walk : Walk}
      (found : live.portrait? object = some seen) (free : ¬ Barred region walk.copies object)
      (fresh : walk.seen.contains object = false)
      (unfit : screening.admits seen.ofClass seen.shape = false) :
      Stop live screening region (object :: rest) walk (.unarchivable seen.shape.name)
        (walk.meet object)
  | full {object : ObjectId} {seen : Portrait} {rest : List ObjectId} {walk : Walk}
      {failure : Failure} {draft : Draft} (found : live.portrait? object = some seen)
      (free : ¬ Barred region walk.copies object) (fresh : walk.seen.contains object = false)
      (fit : screening.admits seen.ofClass seen.shape = true)
      (uncached : walk.copies[object]? = none)
      (full : walk.draft.allocate region seen.shape.name seen.slots = .ok (.error failure, draft)) :
      Stop live screening region (object :: rest) walk failure
        { walk.meet object with draft := draft }

/-- Which contract breaks at the first object of a stack. -/
inductive Break (live : Live) (region : Region) : List ObjectId → Walk → Breach → Prop where
  | missing {object : ObjectId} {rest : List ObjectId} {walk : Walk}
      (missing : ¬ object.index < live.objects.size) :
      Break live region (object :: rest) walk .outOfRange
  | address {object : ObjectId} {seen : Portrait} {rest : List ObjectId} {walk : Walk}
      {breach : Breach} (found : live.portrait? object = some seen)
      (broken : walk.draft.allocate region seen.shape.name seen.slots = .error breach) :
      Break live region (object :: rest) walk breach

/-- Several steps, one after the other. -/
inductive Runs (live : Live) (screening : Screening) (region : Region) :
    List ObjectId → Walk → List ObjectId → Walk → Prop where
  | stay {stack : List ObjectId} {walk : Walk} : Runs live screening region stack walk stack walk
  | next {stack middle last : List ObjectId} {walk later final : Walk}
      (step : Step live screening region stack walk middle later)
      (rest : Runs live screening region middle later last final) :
      Runs live screening region stack walk last final

/-- How a walk ends in its last state. -/
inductive Ends (live : Live) (screening : Screening) (region : Region) :
    List ObjectId → Walk → Run (Outcome Unit × Walk) → Prop where
  | done {walk : Walk} : Ends live screening region [] walk (.ok (.ok (), walk))
  | stopped {stack : List ObjectId} {walk after : Walk} {failure : Failure}
      (stop : Stop live screening region stack walk failure after) :
      Ends live screening region stack walk (.ok (.error failure, after))
  | broken {stack : List ObjectId} {walk : Walk} {breach : Breach}
      (breaks : Break live region stack walk breach) :
      Ends live screening region stack walk (.error breach)

variable {live : Live} {screening : Screening} {region : Region}

theorem Runs.preserves (holds : List ObjectId → Walk → Prop) {stack last : List ObjectId}
    {walk final : Walk} (runs : Runs live screening region stack walk last final)
    (step : ∀ stack walk middle later, Step live screening region stack walk middle later →
      holds stack walk → holds middle later)
    (initial : holds stack walk) : holds last final := by
  induction runs with
  | stay => exact initial
  | next first _ ih => exact ih (step _ _ _ _ first initial)

theorem exists_runs (live : Live) (screening : Screening) (region : Region)
    (stack : List ObjectId) (walk : Walk) :
    ∃ last final, Runs live screening region stack walk last final ∧
      Ends live screening region last final (advance live screening region stack walk) := by
  fun_induction advance live screening region stack walk with
  | case1 walk => exact ⟨[], walk, .stay, .done⟩
  | case2 walk object rest inside _ _ barred =>
    exact ⟨_, _, .stay, .stopped (.barred (Live.portrait?_eq_some inside) barred)⟩
  | case3 walk object rest inside _ _ _ _ free fresh _ fit place cached ih =>
    obtain ⟨last, final, runs, ends⟩ := ih
    exact ⟨last, final, .next (.cached (Live.portrait?_eq_some inside) free fresh fit cached) runs,
      ends⟩
  | case4 walk object rest inside _ _ _ _ free fresh _ fit uncached breach broken =>
    exact ⟨_, _, .stay, .broken (.address (Live.portrait?_eq_some inside) broken)⟩
  | case5 walk object rest inside _ _ _ _ free fresh _ fit uncached failure draft full =>
    exact ⟨_, _, .stay, .stopped
      (.full (Live.portrait?_eq_some inside) free fresh fit uncached full)⟩
  | case6 walk object rest inside _ _ _ _ free fresh _ fit uncached place draft laid ih =>
    obtain ⟨last, final, runs, ends⟩ := ih
    exact ⟨last, final,
      .next (.laid (Live.portrait?_eq_some inside) free fresh fit uncached laid) runs, ends⟩
  | case7 walk object rest inside _ _ _ free fresh _ unfit =>
    exact ⟨_, _, .stay, .stopped (.unfit (Live.portrait?_eq_some inside) free fresh
      (Bool.eq_false_iff.mpr unfit))⟩
  | case8 walk object rest inside _ free old ih =>
    obtain ⟨last, final, runs, ends⟩ := ih
    exact ⟨last, final,
      .next (.again (Live.portrait?_eq_some inside) free (by simpa using old)) runs, ends⟩
  | case9 walk object rest missing => exact ⟨_, _, .stay, .broken (.missing missing)⟩

/-- A walk that succeeds is a run that empties the stack. -/
theorem runs_of_advance_ok {stack : List ObjectId} {walk after : Walk}
    (done : advance live screening region stack walk = .ok (.ok (), after)) :
    Runs live screening region stack walk [] after := by
  obtain ⟨last, final, runs, ends⟩ := exists_runs live screening region stack walk
  rw [done] at ends
  cases ends
  exact runs

/-- A walk that fails is a run up to an object that may not be copied. -/
theorem runs_of_advance_error {stack : List ObjectId} {walk after : Walk} {failure : Failure}
    (done : advance live screening region stack walk = .ok (.error failure, after)) :
    ∃ last final, Runs live screening region stack walk last final ∧
      Stop live screening region last final failure after := by
  obtain ⟨last, final, runs, ends⟩ := exists_runs live screening region stack walk
  rw [done] at ends
  cases ends with
  | stopped stop => exact ⟨last, final, runs, stop⟩

theorem Step.advance_eq {stack middle : List ObjectId} {walk later : Walk}
    (step : Step live screening region stack walk middle later) :
    advance live screening region stack walk = advance live screening region middle later := by
  cases step with
  | again found free old =>
    have inside := Live.isSome_portrait?.mp (Option.isSome_of_eq_some found)
    unfold Barred at free
    rw [advance]
    simp only [dif_pos inside]
    rw [if_neg free, dif_neg (by simp [old])]
  | @cached object _ _ _ _ found free fresh fit cached =>
    have inside := Live.isSome_portrait?.mp (Option.isSome_of_eq_some found)
    rw [Live.portrait?_eq_some inside] at found
    cases found
    unfold Barred at free
    rw [advance]
    simp only [dif_pos inside]
    rw [if_neg free, dif_pos fresh, if_pos fit]
    simp only [cached]
  | @laid object _ _ walk _ _ found free fresh fit uncached laid =>
    have inside := Live.isSome_portrait?.mp (Option.isSome_of_eq_some found)
    rw [Live.portrait?_eq_some inside] at found
    cases found
    unfold Barred at free
    have here : (walk.meet object).draft = walk.draft := rfl
    rw [advance]
    simp only [dif_pos inside]
    rw [if_neg free, dif_pos fresh, if_pos fit]
    simp only [uncached, here, laid]

theorem Stop.advance_eq {stack : List ObjectId} {walk after : Walk} {failure : Failure}
    (stop : Stop live screening region stack walk failure after) :
    advance live screening region stack walk = .ok (.error failure, after) := by
  cases stop with
  | barred found barred =>
    have inside := Live.isSome_portrait?.mp (Option.isSome_of_eq_some found)
    rw [Live.portrait?_eq_some inside] at found
    cases found
    unfold Barred at barred
    rw [advance]
    simp only [dif_pos inside]
    rw [if_pos barred]
  | unfit found free fresh unfit =>
    have inside := Live.isSome_portrait?.mp (Option.isSome_of_eq_some found)
    rw [Live.portrait?_eq_some inside] at found
    cases found
    unfold Barred at free
    rw [advance]
    simp only [dif_pos inside]
    rw [if_neg free, dif_pos fresh, if_neg (by simp [unfit])]
  | @full object _ _ walk _ _ found free fresh fit uncached full =>
    have inside := Live.isSome_portrait?.mp (Option.isSome_of_eq_some found)
    rw [Live.portrait?_eq_some inside] at found
    cases found
    unfold Barred at free
    have here : (walk.meet object).draft = walk.draft := rfl
    rw [advance]
    simp only [dif_pos inside]
    rw [if_neg free, dif_pos fresh, if_pos fit]
    simp only [uncached, here, full]

/-- A walk is broken off where the address of an object does not exist. -/
theorem advance_broken {object : ObjectId} {seen : Portrait} {rest : List ObjectId} {walk : Walk}
    {breach : Breach} (found : live.portrait? object = some seen)
    (free : ¬ Barred region walk.copies object) (fresh : walk.seen.contains object = false)
    (fit : screening.admits seen.ofClass seen.shape = true)
    (uncached : walk.copies[object]? = none)
    (broken : walk.draft.allocate region seen.shape.name seen.slots = .error breach) :
    advance live screening region (object :: rest) walk = .error breach := by
  have inside := Live.isSome_portrait?.mp (Option.isSome_of_eq_some found)
  rw [Live.portrait?_eq_some inside] at found
  cases found
  unfold Barred at free
  have here : (walk.meet object).draft = walk.draft := rfl
  rw [advance]
  simp only [dif_pos inside]
  rw [if_neg free, dif_pos fresh, if_pos fit]
  simp only [uncached, here, broken]

end Walk

namespace Recording

variable {recording after : Recording} {round : Round} {live : Live} {screening : Screening}
  {root : ObjectId} {region : Region}

/-- Copying a graph fails where its walk fails, which is then given up. -/
theorem copyGraph_error {failure : Failure}
    (done : recording.copyGraph round live screening root region = .ok (.error failure, after)) :
    ∃ walk, Walk.advance live screening region [root]
        (Walk.start recording.draft recording.copies round.seen round.tally.walked) =
          .ok (.error failure, walk) ∧ after = recording.abandon round walk := by
  unfold copyGraph at done
  simp only at done
  split at done
  · cases done
  · rename_i walk failed
    cases done
    exact ⟨walk, failed, rfl⟩
  · obtain ⟨kept, _, done⟩ := bind_eq_ok_iff.mp done
    split at done <;> cases done

/-- Copying a graph succeeds where its walk succeeds, which is then linked and taken over. -/
theorem copyGraph_ok {place : Place}
    (done : recording.copyGraph round live screening root region = .ok (.ok place, after)) :
    ∃ walk draft, Walk.advance live screening region [root]
        (Walk.start recording.draft recording.copies round.seen round.tally.walked) =
          .ok (.ok (), walk) ∧
      Walk.patchLinks walk.copies walk.draft walk.links.toList = .ok draft ∧
      after = recording.adopt round walk draft ∧ walk.copies[root]? = some place := by
  unfold copyGraph at done
  simp only at done
  split at done
  · cases done
  · cases done
  · rename_i walk walked
    obtain ⟨kept, keeping, done⟩ := bind_eq_ok_iff.mp done
    obtain ⟨draft, linked, same⟩ := bind_eq_ok_iff.mp keeping
    cases same
    split at done
    · rename_i found
      cases done
      exact ⟨walk, draft, walked, linked, rfl, found⟩
    · cases done

end Recording
end FrozenHeap
