import FrozenHeap.Proofs.Matching.Heaps
import FrozenHeap.Proofs.Screening.Search

namespace FrozenHeap
namespace Matching

open Screening (Finding)

variable {left right : Live} (pairs : Matching left right)

/-- Screenings that know the same of twins and of kin. -/
structure Screenings (screening other : Screening) : Prop where
  excluded : screening.excluded = other.excluded
  verdicts : ∀ former latter, left.Kin right former latter →
    screening.verdict former = other.verdict latter
  clean : pairs.Sets screening.clean.contains other.clean.contains
  tainted : pairs.Sets screening.tainted.contains other.tainted.contains

/-- Searches that visited twins, or ended at twins. -/
inductive Findings : Finding → Finding → Prop where
  | passed {visited seen : Std.TreeSet ObjectId}
      (same : pairs.Sets visited.contains seen.contains) :
    Findings (.passed visited) (.passed seen)
  | stopped {one two : ObjectId} (twins : pairs.twin one two) :
    Findings (.stopped one) (.stopped two)

variable {pairs}

theorem Sets.insert {set other : Std.TreeSet ObjectId}
    (same : pairs.Sets set.contains other.contains)
    {one two : ObjectId} (twins : pairs.twin one two) :
    pairs.Sets (set.insert one).contains (other.insert two).contains := by
  intro last final here
  simp only [Std.TreeSet.contains_insert, compare_eq twins here, same last final here]

/-- Sets that take up sets with the same twins keep having the same twins. -/
theorem Sets.union {set other visited seen : Std.TreeSet ObjectId}
    (same : pairs.Sets set.contains other.contains)
    (new : pairs.Sets visited.contains seen.contains) :
    pairs.Sets (visited.foldl (·.insert ·) set).contains
      (seen.foldl (·.insert ·) other).contains := by
  intro one two twins
  rw [Bool.eq_iff_iff, Std.TreeSet.foldl_eq_foldl_toList, Std.TreeSet.foldl_eq_foldl_toList]
  simp only [Screening.contains_foldl_insert, Std.TreeSet.mem_toList, same one two twins,
    ← Std.TreeSet.contains_iff_mem, new one two twins]

namespace Screenings

variable {screening other : Screening}

theorem start (excluded : List String) :
    pairs.Screenings (Screening.start excluded) (Screening.start excluded) :=
  ⟨rfl, fun _ _ _ => by simp [Screening.verdict, Screening.start],
    fun _ _ _ => by simp [Screening.start], fun _ _ _ => by simp [Screening.start]⟩

theorem admits (same : pairs.Screenings screening other) {former latter : ClassId}
    (kin : left.Kin right former latter) (shape : ClassShape) :
    screening.admits former shape = other.admits latter shape := by
  rw [Screening.admits, Screening.admits, same.excluded, same.verdicts former latter kin]

theorem explore (same : pairs.Screenings screening other) {stack twins : List ObjectId}
    (waiting : List.Forall₂ pairs.twin stack twins) {visited seen : Std.TreeSet ObjectId}
    (visits : pairs.Sets visited.contains seen.contains) :
    Parallel pairs.Findings (screening.explore left stack visited)
      (other.explore right twins seen) := by
  fun_induction Screening.explore screening left stack visited generalizing twins seen with
  | case1 visited =>
    cases waiting
    rw [Screening.explore]
    exact .ok (.passed visits)
  | case2 visited object rest stops =>
    obtain _ | ⟨here, _⟩ := waiting
    rw [Screening.explore, if_pos (same.tainted _ _ here ▸ stops)]
    exact .ok (.stopped here)
  | case3 visited object rest free clean ih =>
    obtain _ | ⟨here, behind⟩ := waiting
    rw [Screening.explore, if_neg (same.tainted _ _ here ▸ free),
      if_pos (same.clean _ _ here ▸ clean)]
    exact ih behind visits
  | case4 visited object rest free unclean fresh inside fit ih =>
    obtain _ | ⟨here, behind⟩ := waiting
    obtain ⟨_, within, shapes, kin, alike⟩ := pairs.exists_portraits here
    rw [same.admits kin, shapes] at fit
    rw [Screening.explore, if_neg (same.tainted _ _ here ▸ free),
      if_neg (same.clean _ _ here ▸ unclean), dif_pos (visits _ _ here ▸ fresh), dif_pos within,
      if_pos fit]
    exact ih (List.rel_append (List.rel_reverse (targetsOf_alike alike)) behind)
      (visits.insert here)
  | case5 visited object rest free unclean fresh inside unfit =>
    obtain _ | ⟨here, behind⟩ := waiting
    obtain ⟨_, within, shapes, kin, _⟩ := pairs.exists_portraits here
    rw [same.admits kin, shapes] at unfit
    rw [Screening.explore, if_neg (same.tainted _ _ here ▸ free),
      if_neg (same.clean _ _ here ▸ unclean), dif_pos (visits _ _ here ▸ fresh), dif_pos within,
      if_neg unfit]
    exact .ok (.stopped here)
  | case6 visited object rest _ _ _ missing =>
    obtain _ | ⟨here, _⟩ := waiting
    exact absurd (pairs.exists_portraits here).1 missing
  | case7 visited object rest free unclean old ih =>
    obtain _ | ⟨here, behind⟩ := waiting
    rw [Screening.explore, if_neg (same.tainted _ _ here ▸ free),
      if_neg (same.clean _ _ here ▸ unclean), dif_neg (visits _ _ here ▸ old)]
    exact ih behind visits

theorem checkObject (same : pairs.Screenings screening other) {one two : ObjectId}
    (twins : pairs.twin one two) :
    Agree pairs.Screenings (screening.checkObject left one) (other.checkObject right two) := by
  have found := same.explore (.cons twins .nil)
    (show pairs.Sets (∅ : Std.TreeSet ObjectId).contains (∅ : Std.TreeSet ObjectId).contains from
      fun _ _ _ => by simp)
  unfold Screening.checkObject
  generalize screening.explore left [one] ∅ = former at found ⊢
  generalize other.explore right [two] ∅ = latter at found ⊢
  cases found with
  | broken => exact .broken
  | ok here =>
    cases here with
    | passed visits => exact .ok ⟨rfl, { same with clean := same.clean.union visits }⟩
    | stopped culprits => exact .ok ⟨rfl, { same with tainted := same.tainted.insert culprits }⟩

variable {former latter : ClassId}

theorem checkStatic (same : pairs.Screenings screening other)
    (peers : left.Peers right pairs.twin former latter) (offset : UInt32) :
    Agree pairs.Screenings (screening.checkStatic left former offset)
      (other.checkStatic right latter offset) := by
  have values := peers.static? offset
  unfold Screening.checkStatic
  generalize left.static? former offset = value at values ⊢
  generalize right.static? latter offset = slot at values ⊢
  cases values with
  | none => exact .ok ⟨rfl, same⟩
  | some here =>
    cases here with
    | bits => exact .ok ⟨rfl, same⟩
    | null => exact .ok ⟨rfl, same⟩
    | ref twins => exact same.checkObject twins

theorem checkStatics (same : pairs.Screenings screening other)
    (peers : left.Peers right pairs.twin former latter) (fields : List StaticField) :
    Agree pairs.Screenings (screening.checkStatics left former fields)
      (other.checkStatics right latter fields) := by
  induction fields generalizing screening other with
  | nil => exact .ok ⟨rfl, same⟩
  | cons field rest ih =>
    have first := same.checkStatic peers field.offset
    unfold Screening.checkStatics
    generalize screening.checkStatic left former field.offset = one at first ⊢
    generalize other.checkStatic right latter field.offset = two at first ⊢
    cases first with
    | broken => exact .broken
    | @ok here there judged =>
      obtain ⟨passed, later⟩ := here
      obtain ⟨_, last⟩ := there
      obtain ⟨rfl, kept⟩ := judged
      cases passed with
      | true => exact ih kept
      | false => exact .ok ⟨rfl, kept⟩

theorem settle (same : pairs.Screenings screening other) (kin : left.Kin right former latter)
    (passed : Bool) :
    pairs.Screenings (screening.settle former passed) (other.settle latter passed) :=
  { same with
    verdicts := fun one two here => by
      have met : compare former one = .eq ↔ compare latter two = .eq := by
        simp only [Std.LawfulEqOrd.compare_eq_iff_eq]
        exact Relator.rel_eq (Live.kin_biUnique left right) kin here
      have before := same.verdicts one two here
      simp only [Screening.verdict, Screening.settle, Std.TreeMap.getElem?_insert, met] at before ⊢
      split
      · rfl
      · exact before }

private theorem checkShape (same : pairs.Screenings screening other)
    (peers : left.Peers right pairs.twin former latter) (shape : ClassShape) :
    Agree pairs.Screenings (screening.checkShape left former shape)
      (other.checkShape right latter shape) := by
  unfold Screening.checkShape
  rw [same.admits peers.kin]
  split
  · exact same.checkStatics peers _
  · exact .ok ⟨rfl, same⟩

theorem checkClass (same : pairs.Screenings screening other)
    (peers : left.Peers right pairs.twin former latter) :
    Parallel pairs.Screenings (screening.checkClass left former)
      (other.checkClass right latter) := by
  obtain ⟨shape, first, second⟩ := peers.kin.shapeOf
  unfold Screening.checkClass
  rw [same.verdicts former latter peers.kin, first, second]
  split
  · exact .ok same
  · refine Parallel.bind (R := Eq) .refl ?_
    rintro shape _ rfl
    refine (same.checkShape peers shape).bind ?_
    rintro ⟨passed, later⟩ ⟨_, last⟩ ⟨rfl, kept⟩
    exact .ok (kept.settle peers.kin passed)

theorem checkClasses (same : pairs.Screenings screening other) {classes others : List ClassId}
    (peers : List.Forall₂ (left.Peers right pairs.twin) classes others) :
    Parallel pairs.Screenings (screening.checkClasses left classes)
      (other.checkClasses right others) := by
  refine Parallel.bind (Parallel.foldlM (fun _ _ _ _ now here => now.checkClass here) peers same) ?_
  intro one two kept
  exact .ok { kept with clean := fun _ _ _ => by simp }

end Screenings

variable (pairs) in
/-- Nominations for the same field; what they are resolved to are peers. -/
structure Nominations (nomination other : Nomination) : Prop where
  className : nomination.className = other.className
  fieldName : nomination.fieldName = other.fieldName
  region : nomination.region = other.region
  canPreserve : nomination.canPreserve = other.canPreserve
  resolved : Option.Rel (fun former latter => left.Peers right pairs.twin former.1 latter.1 ∧
    former.2 = latter.2) nomination.resolved other.resolved

namespace Nominations

variable {nomination other : Nomination}

theorem of (className fieldName : String) (region : Region) :
    pairs.Nominations (.of className fieldName region) (.of className fieldName region) :=
  ⟨rfl, rfl, rfl, rfl, .none⟩

theorem isPreservable (same : pairs.Nominations nomination other) :
    nomination.isPreservable = other.isPreservable := by
  rw [Nomination.isPreservable, Nomination.isPreservable, same.canPreserve,
    isSome_eq_of_rel same.resolved]

/-- A field of a class of one of the names is found in both heaps, or in neither. -/
theorem field? (same : pairs.Nominations nomination other)
    (asked : nomination.className ∈ pairs.names) :
    Option.Rel (fun former latter => left.Peers right pairs.twin former.1 latter.1 ∧
      former.2 = latter.2) (nomination.field? left) (other.field? right) := by
  have classes := pairs.named _ asked
  unfold Nomination.field?
  rw [← same.className, ← same.fieldName]
  generalize left.classNamed? nomination.className = one at classes ⊢
  generalize right.classNamed? nomination.className = two at classes ⊢
  cases classes with
  | none => exact .none
  | some peers =>
    obtain ⟨first, second, here, there, shapes, _⟩ := id peers
    simp only [here, there, shapes, Option.bind_eq_bind, Option.bind_some]
    cases second.shape.static? nomination.fieldName with
    | none => exact .none
    | some field =>
      simp only [Option.bind_some]
      split
      · exact .some ⟨peers, rfl⟩
      · exact .none

theorem resolve (same : pairs.Nominations nomination other)
    (asked : nomination.className ∈ pairs.names) :
    pairs.Nominations (nomination.resolve left) (other.resolve right) := by
  have fields := same.field? asked
  obtain ⟨className, fieldName, region, former, canPreserve⟩ := nomination
  obtain ⟨_, _, _, latter, _⟩ := other
  obtain ⟨rfl, rfl, rfl, rfl, before⟩ := same
  simp only [Nomination.resolve] at before ⊢
  cases before with
  | some peers => exact ⟨rfl, rfl, rfl, rfl, .some peers⟩
  | none =>
    generalize Nomination.field? _ left = one at fields ⊢
    generalize Nomination.field? _ right = two at fields ⊢
    cases fields with
    | none => exact ⟨rfl, rfl, rfl, rfl, .none⟩
    | some peers => exact ⟨rfl, rfl, rfl, rfl, .some peers⟩

end Nominations

variable (pairs) in
/-- Screened nominations for the same field, and screenings that know the same. -/
def Screened (former latter : Nomination × Screening) : Prop :=
  pairs.Nominations former.1 latter.1 ∧ pairs.Screenings former.2 latter.2

variable (pairs) in
/-- Screened nominations for the same fields, and screenings that know the same. -/
def AllScreened (former latter : List Nomination × Screening) : Prop :=
  List.Forall₂ pairs.Nominations former.1 latter.1 ∧ pairs.Screenings former.2 latter.2

namespace Screenings

variable {screening other : Screening}

theorem checkNomination (same : pairs.Screenings screening other) {nomination another : Nomination}
    (nominations : pairs.Nominations nomination another) :
    Parallel pairs.Screened (screening.checkNomination left nomination)
      (other.checkNomination right another) := by
  obtain ⟨className, fieldName, region, former, canPreserve⟩ := nomination
  obtain ⟨_, _, _, latter, _⟩ := another
  obtain ⟨rfl, rfl, rfl, rfl, resolved⟩ := id nominations
  simp only [Screening.checkNomination] at resolved ⊢
  cases resolved with
  | none => cases canPreserve <;> exact .ok ⟨nominations, same⟩
  | @some one two fields =>
    obtain ⟨ofClass, offset⟩ := one
    obtain ⟨peer, _⟩ := two
    obtain ⟨peers, rfl⟩ := fields
    cases canPreserve with
    | false => exact .ok ⟨nominations, same⟩
    | true =>
      have judged := same.checkStatic peers offset
      simp only
      generalize screening.checkStatic left ofClass offset = first at judged ⊢
      generalize other.checkStatic right peer offset = second at judged ⊢
      cases judged with
      | broken => exact .broken
      | @ok one two judged =>
        obtain ⟨passed, later⟩ := one
        obtain ⟨_, last⟩ := two
        obtain ⟨rfl, kept⟩ := judged
        cases passed with
        | true => exact .ok ⟨nominations, kept⟩
        | false => exact .ok ⟨{ nominations with canPreserve := rfl }, kept⟩

theorem checkEach (same : pairs.Screenings screening other) {nominations others : List Nomination}
    (listed : List.Forall₂ pairs.Nominations nominations others) :
    Parallel pairs.AllScreened (screening.checkEach left nominations)
      (other.checkEach right others) := by
  induction listed generalizing screening other with
  | nil => exact .ok ⟨.nil, same⟩
  | cons here _ ih =>
    unfold Screening.checkEach
    refine (same.checkNomination here).bind ?_
    rintro ⟨one, later⟩ ⟨two, last⟩ ⟨first, kept⟩
    refine (ih kept).bind ?_
    rintro ⟨rest, final⟩ ⟨remaining, ending⟩ ⟨behind, done⟩
    exact .ok ⟨.cons first behind, done⟩

/-- Nominations for fields of classes of the names fare the same in both heaps. -/
theorem checkFields (same : pairs.Screenings screening other) {nominations others : List Nomination}
    (listed : List.Forall₂ pairs.Nominations nominations others)
    (asked : ∀ nomination ∈ nominations, nomination.className ∈ pairs.names) :
    Parallel pairs.AllScreened (screening.checkFields left nominations)
      (other.checkFields right others) := by
  refine same.checkEach ?_
  induction listed with
  | nil => exact .nil
  | cons here _ ih =>
    rw [List.forall_mem_cons] at asked
    exact .cons (here.resolve asked.1) (ih asked.2)

end Screenings

end Matching
end FrozenHeap
