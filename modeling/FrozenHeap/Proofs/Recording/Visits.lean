import FrozenHeap.Proofs.Draft.Allocation
import FrozenHeap.Proofs.Recording.Undo
import Mathlib.Algebra.GroupWithZero.Nat

namespace FrozenHeap

namespace Live

/-- From a root, references lead to an object past objects that were not seen before. -/
inductive Visits (live : Live) (seen : Seen) (root : ObjectId) : ObjectId → Prop where
  | root (fresh : seen.contains root = false) : Visits live seen root root
  | next {holder target : ObjectId} (visits : Visits live seen root holder)
      (refers : live.Refers holder target) (fresh : seen.contains target = false) :
      Visits live seen root target

def extent (live : Live) (object : ObjectId) : Nat :=
  ((live.portrait? object).map (·.slots.size + 1)).getD 0

/-- The class of an object, as a walk lists it. -/
def listing? (live : Live) (object : ObjectId) : Option (ClassId × String) :=
  (live.portrait? object).map fun seen => (seen.ofClass, seen.shape.name)

theorem Visits.reaches {live : Live} {seen : Seen} {root object : ObjectId}
    (visits : live.Visits seen root object) : live.Reaches root object := by
  induction visits with
  | root => exact .refl
  | next _ refers _ ih => exact ih.tail refers

end Live

namespace Walk

variable {live : Live} {screening : Screening} {region : Region} {before : Draft} {copies : Copies}
  {seen : Seen} {root object : ObjectId} {stack : List ObjectId} {walk : Walk}

theorem Undoable.fresh (undoable : Undoable copies seen walk)
    (fresh : walk.seen.contains object = false) : seen.contains object = false := by
  by_cases met : object ∈ walk.met
  · exact undoable.met object met
  · rw [← undoable.old object met]
    exact fresh

/-- The objects met account for all that a walk did. -/
structure Log (live : Live) (region : Region) (before : Draft) (copies : Copies) (seen : Seen)
    (walk : Walk) : Prop where
  undoable : Undoable copies seen walk
  distinct : walk.met.toList.Nodup
  marked : ∀ object ∈ walk.met, walk.seen.contains object = true
  known : ∀ object ∈ walk.met, object ∈ walk.copies
  copied : walk.copied.toList = walk.met.toList.filter fun object => copies[object]?.isNone
  classes : walk.classes.toList = walk.met.toList.filterMap live.listing?
  sizes : ∀ other, (walk.draft.image other).words.size = (before.image other).words.size +
    if other = region then (walk.copied.toList.map live.extent).sum else 0
  still : walk.copied.toList = [] → walk.links = #[] ∧ walk.draft = before

namespace Log

theorem start (before : Draft) (copies : Copies) (seen : Seen) (walked : Nat) :
    Log live region before copies seen (Walk.start before copies seen walked) where
  undoable := .start before copies seen walked
  distinct := List.nodup_nil
  marked _ member := absurd member (Array.not_mem_empty _)
  known _ member := absurd member (Array.not_mem_empty _)
  copied := rfl
  classes := rfl
  sizes other := by
    show _ = _ + if other = region then 0 else 0
    rw [ite_self]
    rfl
  still _ := ⟨rfl, rfl⟩

/-- An object that is not seen yet has no copy of this walk. -/
theorem copies_eq (log : Log live region before copies seen walk)
    (fresh : walk.seen.contains object = false) : walk.copies[object]? = copies[object]? := by
  refine log.undoable.kept object fun member => ?_
  rw [← Array.mem_toList_iff, log.copied, List.mem_filter, Array.mem_toList_iff] at member
  rw [log.marked object member.1] at fresh
  cases fresh

theorem nodup_push (log : Log live region before copies seen walk)
    (fresh : walk.seen.contains object = false) : (walk.met.push object).toList.Nodup := by
  rw [Array.toList_push]
  refine List.Nodup.append log.distinct (List.nodup_singleton object) fun other old last => ?_
  rw [List.mem_singleton.mp last, Array.mem_toList_iff] at old
  rw [log.marked object old] at fresh
  cases fresh

private theorem marked_meet (log : Log live region before copies seen walk) :
    ∀ other ∈ (walk.meet object).met, (walk.meet object).seen.contains other = true := by
  intro other member
  rw [contains_meet]
  rcases Array.mem_push.mp member with old | rfl
  · exact .inr (log.marked other old)
  · exact .inl rfl

/-- A step meets at most one object, and copies it if it has no copy. -/
theorem step {middle : List ObjectId} {later : Walk}
    (step : Step live screening region stack walk middle later)
    (log : Log live region before copies seen walk) : Log live region before copies seen later := by
  have undoable := log.undoable.step step
  cases step with
  | again => exact log
  | @cached object portrait rest walk place found free fresh fit cached =>
    have old : copies[object]? = some place := by rw [← log.copies_eq fresh, cached]
    exact { log with
      undoable := undoable
      distinct := log.nodup_push fresh
      marked := log.marked_meet
      known := fun other member => by
        rcases Array.mem_push.mp member with present | rfl
        · exact log.known other present
        · exact mem_copies_iff.mpr ⟨place, cached⟩
      copied := by
        simp [list, meet, log.copied, old]
      classes := by
        simp [list, meet, log.classes, Live.listing?, found] }
  | @laid object portrait rest walk place draft found free fresh fit uncached laid =>
    have absent : copies[object]? = none := by rw [← log.copies_eq fresh, uncached]
    obtain ⟨_, _, _, rfl⟩ := Draft.allocate_ok laid
    exact {
      undoable := undoable
      distinct := log.nodup_push fresh
      marked := log.marked_meet
      known := fun other member => by
        show other ∈ walk.copies.insert object place
        rw [Std.ExtTreeMap.mem_insert, Std.LawfulEqOrd.compare_eq_iff_eq]
        rcases Array.mem_push.mp member with present | rfl
        · exact .inr (log.known other present)
        · exact .inl rfl
      copied := by
        simp [copy, list, meet, log.copied, absent]
      classes := by
        simp [copy, list, meet, log.classes, Live.listing?, found]
      sizes := fun other => by
        show ((walk.draft.laidOut region portrait.shape.name portrait.slots).image other).words.size
          = _
        rw [Draft.size_laidOut, log.sizes]
        split <;> simp [copy, list, meet, Live.extent, found, Nat.add_assoc]
      still := fun none => by simp [copy] at none }

theorem runs {last : List ObjectId} {final : Walk}
    (runs : Runs live screening region stack walk last final)
    (log : Log live region before copies seen walk) : Log live region before copies seen final :=
  runs.preserves (fun _ walk => Log live region before copies seen walk)
    (fun _ _ _ _ step log => log.step step) log

theorem mem_copies (log : Log live region before copies seen walk) :
    object ∈ walk.copies ↔ object ∈ copies ∨ object ∈ walk.met := by
  constructor
  · intro present
    by_cases copied : object ∈ walk.copied
    · rw [← Array.mem_toList_iff, log.copied, List.mem_filter, Array.mem_toList_iff] at copied
      exact .inr copied.1
    · obtain ⟨place, found⟩ := mem_copies_iff.mp present
      rw [log.undoable.kept object copied] at found
      exact .inl (mem_copies_iff.mpr ⟨place, found⟩)
  · rintro (old | met)
    · obtain ⟨place, found⟩ := mem_copies_iff.mp old
      refine mem_copies_iff.mpr ⟨place, ?_⟩
      rw [log.undoable.kept object, found]
      intro copied
      rw [log.undoable.copied object copied] at found
      cases found
    · exact log.known object met

end Log

/-- Where a walk on its way stands: everything met was to be visited, and what is still to be
visited lies behind the stack. -/
structure Touring (live : Live) (seen : Seen) (root : ObjectId) (stack : List ObjectId)
    (walk : Walk) : Prop where
  ahead : ∀ object ∈ stack, object = root ∨ ∃ holder ∈ walk.met, live.Refers holder object
  visits : ∀ object ∈ walk.met, live.Visits seen root object
  pending : ∀ target, (target = root ∨ ∃ holder ∈ walk.met, live.Refers holder target) →
    target ∈ stack ∨ walk.seen.contains target = true

namespace Touring

theorem start (draft : Draft) (copies : Copies) (seen : Seen) (walked : Nat) :
    Touring live seen root [root] (Walk.start draft copies seen walked) where
  ahead object member := .inl (List.mem_singleton.mp member)
  visits _ member := absurd member (Array.not_mem_empty _)
  pending target asked := by
    rcases asked with rfl | ⟨_, member, _⟩
    · exact .inl List.mem_cons_self
    · exact absurd member (Array.not_mem_empty _)

/-- The first object of the stack is to be visited, if it was not seen before. -/
theorem visits_head {rest : List ObjectId} (touring : Touring live seen root (object :: rest) walk)
    (fresh : seen.contains object = false) : live.Visits seen root object := by
  rcases touring.ahead object List.mem_cons_self with rfl | ⟨holder, met, refers⟩
  · exact .root fresh
  · exact .next (touring.visits holder met) refers fresh

/-- Meeting the first object of the stack puts the targets of its references there. -/
theorem visit {rest : List ObjectId} {portrait : Portrait} {later : Walk}
    (touring : Touring live seen root (object :: rest) walk)
    (fresh : seen.contains object = false) (found : live.portrait? object = some portrait)
    (met : later.met = walk.met.push object) (marked : later.seen = walk.seen.insert object) :
    Touring live seen root (targetsOf portrait.slots ++ rest) later where
  ahead other member := by
    rw [met]
    rcases List.mem_append.mp member with target | behind
    · exact .inr ⟨object, Array.mem_push_self, portrait, found, mem_targetsOf.mp target⟩
    · rcases touring.ahead other (List.mem_cons_of_mem _ behind) with first | ⟨holder, old, refers⟩
      · exact .inl first
      · exact .inr ⟨holder, Array.mem_push.mpr (.inl old), refers⟩
  visits other member := by
    rw [met] at member
    rcases Array.mem_push.mp member with old | rfl
    · exact touring.visits other old
    · exact touring.visits_head fresh
  pending target asked := by
    rw [marked, Std.ExtTreeSet.contains_insert, Bool.or_eq_true, beq_iff_eq,
      Std.LawfulEqOrd.compare_eq_iff_eq]
    have older (earlier : target ∈ object :: rest ∨ walk.seen.contains target = true) :
        target ∈ targetsOf portrait.slots ++ rest ∨
          object = target ∨ walk.seen.contains target = true := by
      rcases earlier with listed | before
      · rcases List.mem_cons.mp listed with rfl | behind
        · exact .inr (.inl rfl)
        · exact .inl (List.mem_append_right _ behind)
      · exact .inr (.inr before)
    rcases asked with first | ⟨holder, member, refers⟩
    · exact older (touring.pending target (.inl first))
    · rw [met] at member
      rcases Array.mem_push.mp member with old | rfl
      · exact older (touring.pending target (.inr ⟨holder, old, refers⟩))
      · obtain ⟨other, again, held⟩ := refers
        rw [found] at again
        cases again
        exact .inl (List.mem_append_left rest (mem_targetsOf.mpr held))

theorem step {middle : List ObjectId} {later : Walk}
    (step : Step live screening region stack walk middle later)
    (undoable : Undoable copies seen walk) (touring : Touring live seen root stack walk) :
    Touring live seen root middle later := by
  cases step with
  | again _ _ old =>
    refine ⟨fun other member => touring.ahead other (List.mem_cons_of_mem _ member),
      touring.visits, fun target asked => ?_⟩
    rcases touring.pending target asked with listed | before
    · rcases List.mem_cons.mp listed with rfl | behind
      · exact .inr old
      · exact .inl behind
    · exact .inr before
  | cached found _ fresh => exact touring.visit (undoable.fresh fresh) found rfl rfl
  | laid found _ fresh => exact touring.visit (undoable.fresh fresh) found rfl rfl

theorem runs {last : List ObjectId} {final : Walk}
    (runs : Runs live screening region stack walk last final)
    (undoable : Undoable copies seen walk) (touring : Touring live seen root stack walk) :
    Touring live seen root last final :=
  (runs.preserves
    (fun stack walk => Undoable copies seen walk ∧ Touring live seen root stack walk)
    (fun _ _ _ _ step both => ⟨both.1.step step, both.2.step step both.1⟩)
    ⟨undoable, touring⟩).2

private theorem mem_met (touring : Touring live seen root [] walk)
    (undoable : Undoable copies seen walk) :
    object ∈ walk.met ↔ live.Visits seen root object := by
  have met {target : ObjectId} (asked : target = root ∨ ∃ holder ∈ walk.met,
      live.Refers holder target) (fresh : seen.contains target = false) : target ∈ walk.met := by
    refine Decidable.byContradiction fun absent => ?_
    have seen := (touring.pending target asked).resolve_left (nomatch ·)
    rw [undoable.old target absent, fresh] at seen
    cases seen
  refine ⟨touring.visits object, fun visits => ?_⟩
  induction visits with
  | root fresh => exact met (.inl rfl) fresh
  | next _ refers fresh ih => exact met (.inr ⟨_, ih, refers⟩) fresh

end Touring

theorem log_of_advance {after : Walk} {walked : Nat}
    (done : advance live screening region [root] (Walk.start before copies seen walked) =
      .ok (.ok (), after)) :
    Log live region before copies seen after ∧
      ∀ object, object ∈ after.met ↔ live.Visits seen root object := by
  have runs := runs_of_advance_ok done
  have log := (Log.start before copies seen walked).runs runs
  have touring := (Touring.start before copies seen walked).runs runs (.start _ _ _ _)
  exact ⟨log, fun _ => touring.mem_met log.undoable⟩

end Walk
end FrozenHeap
