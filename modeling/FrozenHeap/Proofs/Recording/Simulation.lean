import FrozenHeap.Proofs.Parallel
import FrozenHeap.Proofs.Recording.Steps

/-! Walks side by side. Two walks, through two heaps or through the same one, go the same way if
they know the same of objects that correspond to each other. What they are to have in common besides
is left open: it is enough that each thing that a walk does keeps it. -/

namespace FrozenHeap

/-- Objects of one shape, which two walks both admit or both refuse, and whose references lead to
objects that correspond to each other. -/
structure Portrait.Fellows (screening other : Screening) (twin : ObjectId → ObjectId → Prop)
    (former latter : Portrait) : Prop where
  shape : former.shape = latter.shape
  fit : screening.admits former.ofClass former.shape = other.admits latter.ofClass latter.shape
  targets : List.Forall₂ twin (targetsOf former.slots) (targetsOf latter.slots)

namespace Walk

/-- A walk after an object was laid out, or was not. -/
def lay (walk : Walk) (object : ObjectId) (slots : Array Slot) : Outcome Place × Draft → Walk
  | (.ok place, draft) => walk.copy draft object place slots
  | (.error _, draft) => { walk with draft := draft }

/-- A relation of walks that is kept where both do the same with objects that correspond. -/
structure Simulation (left right : Live) (screening other : Screening) (region : Region)
    (twin : ObjectId → ObjectId → Prop) (related : Walk → Walk → Prop) : Prop where
  portraits : ∀ {one two}, twin one two →
    Option.Rel (Portrait.Fellows screening other twin) (left.portrait? one) (right.portrait? two)
  copies : ∀ {walk second one two}, related walk second → twin one two →
    walk.copies[one]? = second.copies[two]?
  seen : ∀ {walk second one two}, related walk second → twin one two →
    walk.seen.contains one = second.seen.contains two
  meet : ∀ {walk second one two}, related walk second → twin one two →
    related (walk.meet one) (second.meet two)
  list : ∀ {walk second one two former latter}, related walk second → twin one two →
    left.portrait? one = some former → right.portrait? two = some latter →
    related (walk.list (former.ofClass, former.shape.name))
      (second.list (latter.ofClass, latter.shape.name))
  lay : ∀ {walk second one two former latter}, related walk second → twin one two →
    left.portrait? one = some former → right.portrait? two = some latter →
    second.copies[two]? = none →
    Parallel (fun laid fellow => laid.1 = fellow.1 ∧
        related (walk.lay one former.slots laid) (second.lay two latter.slots fellow))
      (walk.draft.allocate region former.shape.name former.slots)
      (second.draft.allocate region latter.shape.name latter.slots)

namespace Simulation

variable {left right : Live} {screening other : Screening} {region : Region}
  {twin : ObjectId → ObjectId → Prop} {related : Walk → Walk → Prop} {walk second : Walk}
  {one two : ObjectId}

private theorem exists_fellow (same : Simulation left right screening other region twin related)
    (twins : twin one two) {former : Portrait} (found : left.portrait? one = some former) :
    ∃ latter, right.portrait? two = some latter ∧
      Portrait.Fellows screening other twin former latter := by
  have sights := same.portraits twins
  rw [found] at sights
  cases there : right.portrait? two with
  | none =>
    rw [there] at sights
    cases sights
  | some latter =>
    rw [there] at sights
    cases sights with
    | some fellows => exact ⟨latter, rfl, fellows⟩

private theorem barred_iff (same : Simulation left right screening other region twin related)
    (here : related walk second) (twins : twin one two) :
    Barred region walk.copies one ↔ Barred region second.copies two := by
  unfold Barred
  rw [same.copies here twins]

/-- What one walk copies, the other walk does not refuse. -/
private theorem exists_admitted (same : Simulation left right screening other region twin related)
    (here : related walk second) (twins : twin one two) {former : Portrait}
    (seen : left.portrait? one = some former) (free : ¬ Barred region walk.copies one)
    (fresh : walk.seen.contains one = false)
    (fit : screening.admits former.ofClass former.shape = true) :
    ∃ latter, right.portrait? two = some latter ∧ ¬ Barred region second.copies two ∧
      second.seen.contains two = false ∧ other.admits latter.ofClass latter.shape = true ∧
      List.Forall₂ twin (targetsOf former.slots) (targetsOf latter.slots) := by
  obtain ⟨latter, found, fellows⟩ := same.exists_fellow twins seen
  refine ⟨latter, found, ?_, ?_, ?_, fellows.targets⟩
  · exact mt (same.barred_iff here twins).mpr free
  · exact (same.seen here twins).symm.trans fresh
  · exact fellows.fit.symm.trans fit

/-- Related walks have the same outcome, and are related at their ends. -/
theorem advance (same : Simulation left right screening other region twin related)
    (here : related walk second) {stack others : List ObjectId}
    (waiting : List.Forall₂ twin stack others) :
    Agree related (Walk.advance left screening region stack walk)
      (Walk.advance right other region others second) := by
  fun_induction Walk.advance left screening region stack walk generalizing second others with
  | case1 walk =>
    cases waiting
    rw [Walk.advance]
    exact .ok ⟨rfl, here⟩
  | case2 walk object rest inside _ _ =>
    rename_i barred
    obtain _ | ⟨twins, _⟩ := waiting
    obtain ⟨latter, found, fellows⟩ := same.exists_fellow twins (Live.portrait?_eq_some inside)
    rw [(Stop.barred found ((same.barred_iff here twins).mp barred)).advance_eq, ← fellows.shape]
    exact .ok ⟨rfl, here⟩
  | case3 walk object rest inside _ _ _ _ free fresh _ fit place =>
    rename_i cached ih
    obtain _ | ⟨twins, behind⟩ := waiting
    have seen := Live.portrait?_eq_some inside
    obtain ⟨latter, found, free, fresh, fit, targets⟩ :=
      same.exists_admitted here twins seen free fresh fit
    have copied := (same.copies here twins).symm.trans cached
    rw [(Step.cached found free fresh fit copied).advance_eq]
    exact ih (same.list (same.meet here twins) twins seen found) (List.rel_append targets behind)
  | case4 walk object rest inside _ _ _ _ free fresh _ fit uncached =>
    rename_i breach broken
    obtain _ | ⟨twins, _⟩ := waiting
    have seen := Live.portrait?_eq_some inside
    obtain ⟨latter, found, free, fresh, fit, _⟩ :=
      same.exists_admitted here twins seen free fresh fit
    have absent := (same.copies here twins).symm.trans uncached
    have laid := same.lay (same.meet here twins) twins seen found absent
    rw [broken] at laid
    rw [advance_broken found free fresh fit absent laid.error_eq]
    exact .broken
  | case5 walk object rest inside _ _ _ _ free fresh _ fit uncached failure =>
    rename_i draft full
    obtain _ | ⟨twins, _⟩ := waiting
    have seen := Live.portrait?_eq_some inside
    obtain ⟨latter, found, free, fresh, fit, _⟩ :=
      same.exists_admitted here twins seen free fresh fit
    have absent := (same.copies here twins).symm.trans uncached
    have laid := same.lay (same.meet here twins) twins seen found absent
    rw [full] at laid
    obtain ⟨⟨_, _⟩, done, rfl, after⟩ := laid.exists_ok
    rw [(Stop.full found free fresh fit absent done).advance_eq]
    exact .ok ⟨rfl, after⟩
  | case6 walk object rest inside _ _ _ _ free fresh _ fit uncached place draft =>
    rename_i placed ih
    obtain _ | ⟨twins, behind⟩ := waiting
    have seen := Live.portrait?_eq_some inside
    obtain ⟨latter, found, free, fresh, fit, targets⟩ :=
      same.exists_admitted here twins seen free fresh fit
    have absent := (same.copies here twins).symm.trans uncached
    have laid := same.lay (same.meet here twins) twins seen found absent
    rw [placed] at laid
    obtain ⟨⟨_, _⟩, done, rfl, after⟩ := laid.exists_ok
    rw [(Step.laid found free fresh fit absent done).advance_eq]
    -- The class is listed before the object is laid out, which makes no difference.
    exact ih (same.list after twins seen found) (List.rel_append targets behind)
  | case7 walk object rest inside _ _ _ free fresh =>
    rename_i _ unfit
    obtain _ | ⟨twins, _⟩ := waiting
    obtain ⟨latter, found, fellows⟩ := same.exists_fellow twins (Live.portrait?_eq_some inside)
    rw [(Stop.unfit found (mt (same.barred_iff here twins).mpr free)
      (same.seen here twins ▸ fresh)
      (fellows.fit.symm.trans (Bool.eq_false_iff.mpr unfit))).advance_eq, ← fellows.shape]
    exact .ok ⟨rfl, same.meet here twins⟩
  | case8 walk object rest inside _ free old =>
    rename_i ih
    obtain _ | ⟨twins, behind⟩ := waiting
    obtain ⟨latter, found, _⟩ := same.exists_fellow twins (Live.portrait?_eq_some inside)
    rw [(Step.again found (mt (same.barred_iff here twins).mpr free)
      (by rw [← same.seen here twins]; simpa using old)).advance_eq]
    exact ih here behind
  | case9 walk object rest missing =>
    obtain _ | @⟨_, two, _, _, twins, _⟩ := waiting
    have sights := same.portraits twins
    rw [Live.portrait?, dif_neg missing] at sights
    have absent : ¬ two.index < right.objects.size := fun inside => by
      rw [Live.portrait?_eq_some inside] at sights
      cases sights
    rw [Walk.advance, dif_neg absent]
    exact .broken

end Simulation
end Walk
end FrozenHeap
