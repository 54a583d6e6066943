import FrozenHeap.Proofs.Matching.Walks
import FrozenHeap.Proofs.Recording.Twins

namespace FrozenHeap
namespace Matching

variable {left right : Live} (pairs : Matching left right)

/-- Twins that are to agree with the same copy. -/
def Pairings (pairing other : Pairing) : Prop := pairs.twin pairing.1 other.1 ∧ pairing.2 = other.2

variable {pairs} (draft : Draft)

private theorem compareSlot_alike {slot other : Slot} (alike : Slot.Alike pairs.twin slot other)
    (cell : Cell) :
    Parallel (Answered (Option.Rel pairs.Pairings)) (draft.compareSlot slot cell)
      (draft.compareSlot other cell) := by
  cases alike with
  | bits =>
    simp only [Draft.compareSlot]
    split
    · exact .ok (.ok .none)
    · exact .ok .refused
  | null =>
    simp only [Draft.compareSlot]
    split
    · exact .ok (.ok .none)
    · exact .ok .refused
  | ref twins =>
    simp only [Draft.compareSlot]
    split
    · split
      · split
        · exact .broken
        · exact .ok (.ok (.some ⟨twins, rfl⟩))
        · exact .ok .refused
      · exact .ok .refused
    · exact .ok .refused

private theorem compareSlots_alike {slots others : List Slot}
    (alike : List.Forall₂ (Slot.Alike pairs.twin) slots others) (cells : List Cell) :
    Parallel (Answered (List.Forall₂ pairs.Pairings)) (draft.compareSlots slots cells)
      (draft.compareSlots others cells) := by
  induction alike generalizing cells with
  | nil => exact .ok (.ok .nil)
  | cons here _ ih =>
    cases cells with
    | nil => exact .ok (.ok .nil)
    | cons cell cells =>
      have first := compareSlot_alike draft here cell
      have rest := ih cells
      unfold Draft.compareSlots
      generalize draft.compareSlot _ cell = one at first ⊢
      generalize draft.compareSlot _ cell = two at first ⊢
      cases first with
      | broken => exact .broken
      | ok compared =>
        cases compared with
        | refused => exact .ok .refused
        | ok next =>
          generalize draft.compareSlots _ cells = one at rest ⊢
          generalize draft.compareSlots _ cells = two at rest ⊢
          cases rest with
          | broken => exact .broken
          | ok compared =>
            cases compared with
            | refused => exact .ok .refused
            | ok behind =>
              refine .ok (.ok (List.rel_append ?_ behind))
              cases next with
              | none => exact .nil
              | some pairing => exact .cons pairing .nil

private theorem compareObject_alike {slots others : Array Slot}
    (alike : List.Forall₂ (Slot.Alike pairs.twin) slots.toList others.toList) (shape : ClassShape)
    (place : Place) :
    Parallel (Answered (List.Forall₂ pairs.Pairings)) (draft.compareObject shape slots place)
      (draft.compareObject shape others place) := by
  have size : slots.size = others.size := by simpa using alike.length_eq
  unfold Draft.compareObject
  rw [size]
  split
  · exact .broken
  · exact .ok .refused
  · split
    · exact .ok .refused
    · split
      · exact .ok .refused
      · exact compareSlots_alike draft alike _

private theorem lockstep_alike {stack others : List Pairing}
    (waiting : List.Forall₂ pairs.Pairings stack others)
    {paired another : Std.TreeMap ObjectId Place}
    (same : pairs.Tables (paired[·]?) (another[·]?)) :
    Parallel (Answered fun _ _ => True) (draft.lockstep left stack paired)
      (draft.lockstep right others another) := by
  fun_induction Draft.lockstep draft left stack paired generalizing others another with
  | case1 =>
    cases waiting
    rw [Draft.lockstep]
    exact .ok (.ok trivial)
  | case2 paired object rest inside other found ih =>
    obtain _ | @⟨_, ⟨_, _⟩, _, _, ⟨twins, rfl⟩, behind⟩ := waiting
    obtain ⟨_, within, _⟩ := pairs.exists_portraits twins
    rw [Draft.lockstep_met within ((same _ _ twins).symm.trans found), if_pos rfl]
    exact ih behind same
  | case3 paired object place rest inside _ other found =>
    rename_i different
    obtain _ | @⟨_, ⟨_, _⟩, _, _, ⟨twins, rfl⟩, behind⟩ := waiting
    obtain ⟨_, within, _⟩ := pairs.exists_portraits twins
    rw [Draft.lockstep_met within ((same _ _ twins).symm.trans found), if_neg different]
    exact .ok .refused
  | case4 paired object place rest inside _ fresh breach =>
    rename_i broken
    obtain _ | @⟨_, ⟨_, _⟩, _, _, ⟨twins, rfl⟩, behind⟩ := waiting
    obtain ⟨_, within, shapes, _, alike⟩ := pairs.exists_portraits twins
    have compared := compareObject_alike draft alike (left.shapeAt _ inside) place
    rw [broken] at compared
    rw [Draft.lockstep_fresh within ((same _ _ twins).symm.trans fresh), ← shapes,
      compared.error_eq]
    exact .broken
  | case5 paired object place rest inside _ fresh mismatch =>
    rename_i differs
    obtain _ | @⟨_, ⟨_, _⟩, _, _, ⟨twins, rfl⟩, behind⟩ := waiting
    obtain ⟨_, within, shapes, _, alike⟩ := pairs.exists_portraits twins
    have compared := compareObject_alike draft alike (left.shapeAt _ inside) place
    rw [differs] at compared
    obtain ⟨_, there, _ | _⟩ := compared.exists_ok
    rw [Draft.lockstep_fresh within ((same _ _ twins).symm.trans fresh), ← shapes, there]
    exact .ok .refused
  | case6 paired object place rest inside _ fresh next =>
    rename_i agree ih
    obtain _ | @⟨_, ⟨_, _⟩, _, _, ⟨twins, rfl⟩, behind⟩ := waiting
    obtain ⟨_, within, shapes, _, alike⟩ := pairs.exists_portraits twins
    have compared := compareObject_alike draft alike (left.shapeAt _ inside) place
    rw [agree] at compared
    obtain ⟨_, there, _ | pairings⟩ := compared.exists_ok
    rw [Draft.lockstep_fresh within ((same _ _ twins).symm.trans fresh), ← shapes, there]
    refine ih (List.rel_append (List.rel_reverse pairings) behind) fun last final here => ?_
    have met := compare_eq twins here
    simp only [beq_eq_beq] at met
    simp only [Std.TreeMap.getElem?_insert, met, same last final here]
  | case7 paired object place rest missing =>
    obtain _ | @⟨_, ⟨_, _⟩, _, _, ⟨twins, rfl⟩, behind⟩ := waiting
    exact absurd (pairs.exists_portraits twins).1 missing

theorem verify_alike {one two : ObjectId} (twins : pairs.twin one two) (place : Place) :
    Parallel (Answered fun _ _ => True) (draft.verify left one place)
      (draft.verify right two place) := by
  have waiting : List.Forall₂ pairs.Pairings [(one, place)] [(two, place)] :=
    .cons ⟨twins, rfl⟩ .nil
  exact lockstep_alike draft waiting fun _ _ _ => by simp

end Matching
end FrozenHeap
