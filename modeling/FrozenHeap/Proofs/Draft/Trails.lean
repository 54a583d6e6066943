import FrozenHeap.Proofs.Draft.Twins
import FrozenHeap.Proofs.Recording.Linking

namespace FrozenHeap

/-- What can be done to a draft. -/
inductive Edit where
  | allocate (region : Region) (name : String) (slots : Array Slot)
  | patch (holder : Place) (slot : Nat) (target : Option Place)
  | name (name : String)
  | mark
  | rollback (mark : Draft.Mark)

/-- A draft with what it has handed out, the latest first. -/
structure Trail where
  draft : Draft
  outcomes : List (Outcome Place)
  positions : List (Nat × String)
  marks : List Draft.Mark

namespace Trail

def start (draft : Draft) : Trail := ⟨draft, [], [], []⟩

def edit (trail : Trail) : Edit → Run Trail
  | .allocate region name slots => do
    let (outcome, after) ← trail.draft.allocate region name slots
    return { trail with draft := after, outcomes := outcome :: trail.outcomes }
  | .patch holder slot target => do
    let after ← trail.draft.patch holder slot target
    return { trail with draft := after }
  | .name name => .ok { trail with
      draft := (trail.draft.nameIndex name).2
      positions := ((trail.draft.nameIndex name).1, name) :: trail.positions }
  | .mark => .ok { trail with marks := trail.draft.mark :: trail.marks }
  | .rollback mark => .ok { trail with draft := trail.draft.rollback mark }

def edits (trail : Trail) (list : List Edit) : Run Trail := list.foldlM edit trail

/-- An edit patches no object but those that the trail has laid out, and goes back to no mark but
those that the trail has taken. -/
def Allows (trail : Trail) : Edit → Prop
  | .patch holder _ _ => .ok holder ∈ trail.outcomes
  | .rollback mark => mark ∈ trail.marks
  | _ => True

instance (trail : Trail) : (edit : Edit) → Decidable (trail.Allows edit)
  | .patch holder _ _ => inferInstanceAs (Decidable (.ok holder ∈ trail.outcomes))
  | .rollback mark => inferInstanceAs (Decidable (mark ∈ trail.marks))
  | .allocate .. => inferInstanceAs (Decidable True)
  | .name _ => inferInstanceAs (Decidable True)
  | .mark => inferInstanceAs (Decidable True)

/-- An edit that keeps to what the trail has handed out. -/
def follow (trail : Trail) (edit : Edit) : Run Trail := do
  ensure (trail.Allows edit)
  trail.edit edit

def follows (trail : Trail) (list : List Edit) : Run Trail := list.foldlM follow trail

end Trail

namespace Draft

theorem covered_start {settings : Settings} {draft : Draft} (started : start settings = .ok draft)
    (region : Region) : (draft.image region).Covered := by
  unfold start at started
  split at started
  · cases started
  · cases started
    cases region <;> rfl

namespace Extends

variable {before after : Draft}

/-- Words behind those that are extended may be overwritten. -/
theorem setWord (grown : before.Extends after) {region : Region} {index : Nat}
    (behind : (before.image region).words.size ≤ index) (word : UInt64) :
    before.Extends (after.modifyImage region (·.setWord index word)) := by
  have rewrites := Rewrites.setWord after region index word
  exact {
    narrowing := rewrites.narrowing.trans grown.narrowing
    capacity := rewrites.capacity.trans grown.capacity
    names := rewrites.names ▸ grown.names
    region := fun other => (rewrites.region other).trans (grown.region other)
    base := fun other => (rewrites.base other).trans (grown.base other)
    size := fun other => (rewrites.size other).symm ▸ grown.size other
    cells := fun other position inside => by
      rw [image_modifyImage, ← grown.cells other position inside]
      split
      · rename_i same
        subst same
        exact Image.cellAt?_setWord_of_ne _ _ (by omega)
      · rfl }

/-- Cutting back to a mark that keeps the words that are extended keeps them. -/
theorem cut (grown : before.Extends after) {mark : Mark}
    (keeps : ∀ region, (before.image region).words.size ≤ mark.size region) :
    before.Extends (after.rollback mark) where
  narrowing := grown.narrowing
  capacity := grown.capacity
  names := grown.names
  region region := by
    rw [image_rollback]
    exact grown.region region
  base region := by
    rw [image_rollback]
    exact grown.base region
  size region := by
    rw [image_rollback, Image.truncate, Array.take_eq_extract, Array.size_extract]
    have longer := grown.size region
    have kept := keeps region
    omega
  cells region index inside := by
    rw [image_rollback, Image.cellAt?_truncate, if_pos (Nat.lt_of_lt_of_le inside (keeps region)),
      grown.cells region index inside]

end Extends
end Draft

namespace Trail

variable {trail next : Trail} {change : Edit}

/-- The marks of both images cover their words, and each name is found at the position that was
handed out for it. -/
structure Sound (trail : Trail) : Prop where
  covered : ∀ region, (trail.draft.image region).Covered
  found : ∀ position name, (position, name) ∈ trail.positions →
    trail.draft.names.findIdx? (· == name) = some position

theorem sound_start {draft : Draft} (covered : ∀ region, (draft.image region).Covered) :
    (start draft).Sound := ⟨covered, fun _ _ listed => absurd listed List.not_mem_nil⟩

namespace Sound

theorem edit (sound : trail.Sound) (done : trail.edit change = .ok next) : next.Sound := by
  cases change with
  | allocate region name slots =>
    obtain ⟨⟨outcome, after⟩, laid, same⟩ := bind_eq_ok_iff.mp done
    cases same
    cases outcome with
    | error failure =>
      obtain ⟨_, _, rfl⟩ := Draft.allocate_error laid
      exact ⟨sound.covered, sound.found⟩
    | ok place =>
      obtain ⟨_, _, _, rfl⟩ := Draft.allocate_ok laid
      have grown := Draft.extends_laidOut sound.covered region name slots
      exact ⟨Draft.covered_laidOut sound.covered, fun position other listed =>
        Draft.findIdx?_of_longer grown.names (sound.found position other listed)⟩
  | patch holder slot target =>
    obtain ⟨after, patched, same⟩ := bind_eq_ok_iff.mp done
    cases same
    obtain ⟨_, _, _, _, _, _, rfl⟩ := Draft.patch_ok patched
    have rewrites := Draft.Rewrites.setWord trail.draft holder.region
    refine ⟨fun region => ?_, fun position other listed => ?_⟩
    · rw [Image.Covered, (rewrites ..).marks, (rewrites ..).size]
      exact sound.covered region
    · rw [(rewrites ..).names]
      exact sound.found position other listed
  | name name =>
    cases done
    have image := trail.draft.image_nameIndex name
    refine ⟨fun region => ?_, fun position other listed => ?_⟩
    · rw [image]
      exact sound.covered region
    · rcases List.mem_cons.mp listed with here | before
      · cases here
        exact trail.draft.findIdx?_nameIndex name
      · exact Draft.findIdx?_of_longer (trail.draft.extends_nameIndex name).names
          (sound.found position other before)
  | mark =>
    cases done
    exact ⟨sound.covered, sound.found⟩
  | rollback mark =>
    cases done
    refine ⟨fun region => ?_, sound.found⟩
    rw [Draft.image_rollback]
    exact Image.covered_truncate (sound.covered region) _

theorem edits {list : List Edit} (sound : trail.Sound) (done : trail.edits list = .ok next) :
    next.Sound :=
  foldlM_preserves Sound (fun _ _ _ _ done sound => sound.edit done) sound done

end Sound

/-- The trail keeps what a draft holds. Its objects lie behind the words of this draft, and its
marks keep these. -/
structure Behind (before : Draft) (trail : Trail) : Prop where
  grown : before.Extends trail.draft
  laid : ∀ place : Place, .ok place ∈ trail.outcomes → ∃ start,
    (before.image place.region).words.size ≤ start ∧
      place.address.toNat = (before.image place.region).base.toNat + wordBytes * start
  keeps : ∀ mark ∈ trail.marks, ∀ region, (before.image region).words.size ≤ mark.size region

namespace Behind

variable {before : Draft}

theorem start (before : Draft) : Behind before (start before) :=
  ⟨.refl before, fun _ listed => absurd listed List.not_mem_nil,
    fun _ listed => absurd listed List.not_mem_nil⟩

/-- An edit that keeps to what the trail has handed out leaves in place what the trail
started with. -/
theorem edit (behind : trail.Behind before) (covered : ∀ region, (trail.draft.image region).Covered)
    (allowed : trail.Allows change) (done : trail.edit change = .ok next) : next.Behind before := by
  cases change with
  | allocate region name slots =>
    obtain ⟨⟨outcome, after⟩, laid, same⟩ := bind_eq_ok_iff.mp done
    cases same
    cases outcome with
    | error failure =>
      obtain ⟨_, _, rfl⟩ := Draft.allocate_error laid
      refine ⟨behind.grown, fun place listed => ?_, behind.keeps⟩
      rcases List.mem_cons.mp listed with same | earlier
      · cases same
      · exact behind.laid place earlier
    | ok place =>
      obtain ⟨_, here, there, rfl⟩ := Draft.allocate_ok laid
      refine ⟨behind.grown.trans (Draft.extends_laidOut covered region name slots),
        fun other listed => ?_, behind.keeps⟩
      rcases List.mem_cons.mp listed with same | earlier
      · cases same
        subst here
        exact ⟨_, behind.grown.size _, by rw [there, behind.grown.base]⟩
      · exact behind.laid other earlier
  | patch holder slot target =>
    obtain ⟨after, patched, same⟩ := bind_eq_ok_iff.mp done
    cases same
    obtain ⟨index, _, found, _, _, _, rfl⟩ := Draft.patch_ok patched
    obtain ⟨start, after, there⟩ := behind.laid holder allowed
    -- The object starts behind what is to be kept, and its slots lie behind its start.
    rw [← behind.grown.base] at there
    cases found.symm.trans (Draft.wordIndex_eq there)
    exact ⟨behind.grown.setWord (by omega) _, behind.laid, behind.keeps⟩
  | name name =>
    cases done
    exact ⟨behind.grown.trans (trail.draft.extends_nameIndex name), behind.laid, behind.keeps⟩
  | mark =>
    cases done
    refine ⟨behind.grown, behind.laid, List.forall_mem_cons.mpr ⟨fun region => ?_, behind.keeps⟩⟩
    rw [Draft.size_mark]
    exact behind.grown.size region
  | rollback mark =>
    cases done
    exact ⟨behind.grown.cut (behind.keeps mark allowed), behind.laid, behind.keeps⟩

/-- The same for edits one after the other, from a draft whose marks cover its words. -/
theorem follows {list : List Edit} (covered : ∀ region, (before.image region).Covered)
    (done : (Trail.start before).follows list = .ok next) : next.Sound ∧ next.Behind before := by
  refine foldlM_preserves (fun trail => trail.Sound ∧ trail.Behind before)
    (fun _ _ _ _ followed holds => ?_) ⟨sound_start covered, .start before⟩ done
  obtain ⟨_, allowed, done⟩ := bind_eq_ok_iff.mp followed
  obtain ⟨sound, behind⟩ := holds
  exact ⟨sound.edit done, behind.edit sound.covered (ensure_eq_ok_iff.mp allowed) done⟩

end Behind
end Trail
end FrozenHeap
