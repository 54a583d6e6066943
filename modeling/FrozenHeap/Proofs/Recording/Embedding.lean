import FrozenHeap.Proofs.Draft.Addresses
import FrozenHeap.Proofs.Reach
import FrozenHeap.Recording
import Mathlib.Data.List.Forall2
import Mathlib.Data.Set.Function

namespace FrozenHeap

/-- A cell holds the primitive bits of a slot and has no mark, or it is marked and holds zero for
null or the narrow form of the copy of a reference's target. -/
def Slot.Agrees (draft : Draft) (image : ObjectId → Place) : Slot → Cell → Prop
  | .bits word, cell => cell.isReference = false ∧ cell.word = word
  | .null, cell => cell.isReference = true ∧ cell.word = 0
  | .ref target, cell => cell.isReference = true ∧ ∃ narrow : Narrow,
      cell.word = narrow.toUInt64 ∧ draft.resolve? narrow = .ok (some (image target))

namespace Draft

variable {draft : Draft} {live : Live} {root : ObjectId} {place : Place}
  {image other : ObjectId → Place} {slots : List Slot} {cells : List Cell} {next : List Pairing}

/-- What is written at a place has the class name of an object, and its slots. -/
def Agrees (draft : Draft) (image : ObjectId → Place) (seen : Portrait) (place : Place) : Prop :=
  ∃ copy, draft.copyAt? place = .ok (some copy) ∧ copy.className = seen.shape.name ∧
    List.Forall₂ (Slot.Agrees draft image) seen.slots.toList copy.cells.toList

/-- A map takes a root to a place, and all that is reachable from the root to copies that agree. -/
structure Embeds (draft : Draft) (live : Live) (root : ObjectId) (place : Place)
    (image : ObjectId → Place) : Prop where
  start : image root = place
  agrees : ∀ object, live.Reaches root object → ∃ seen, live.portrait? object = some seen ∧
    draft.Agrees image seen (image object)

/-- The graph of copies at a place has the shape of the live graph behind an object. -/
def Isomorphic (draft : Draft) (live : Live) (root : ObjectId) (place : Place) : Prop :=
  ∃ image, draft.Embeds live root place image ∧ Set.InjOn image {object | live.Reaches root object}

/-- The copies agree with the live graph, but two of its objects share one. -/
def Merges (draft : Draft) (live : Live) (root : ObjectId) (place : Place) : Prop :=
  ∃ image, draft.Embeds live root place image ∧ ∃ one two, live.Reaches root one ∧
    live.Reaches root two ∧ one ≠ two ∧ image one = image two

/-- The pairings are a map's. -/
def Follow (image : ObjectId → Place) (pairings : List Pairing) : Prop :=
  ∀ pairing ∈ pairings, image pairing.1 = pairing.2

private theorem follow_append {left right : List Pairing} :
    Follow image (left ++ right) ↔ Follow image left ∧ Follow image right :=
  List.forall_mem_append

private theorem compareSlot_ref_iff {target : ObjectId} {cell : Cell} {pairing : Option Pairing} :
    draft.compareSlot (.ref target) cell = .ok (.ok pairing) ↔ cell.isReference = true ∧
      ∃ narrow : Narrow, cell.word = narrow.toUInt64 ∧ ∃ place,
        draft.resolve? narrow = .ok (some place) ∧ pairing = some (target, place) := by
  constructor
  · intro done
    simp only [compareSlot] at done
    split at done
    · rename_i marked
      split at done
      · rename_i small
        have wide : cell.word = cell.word.toUInt32.toUInt64 := by
          apply UInt64.toNat_inj.mp
          rw [UInt32.toNat_toUInt64, UInt64.toNat_toUInt32, Nat.mod_eq_of_lt small]
        split at done
        · cases done
        · rename_i place resolved
          cases done
          exact ⟨marked, _, wide, place, resolved, rfl⟩
        · cases done
      · cases done
    · cases done
  · rintro ⟨marked, narrow, stored, place, resolved, rfl⟩
    have small : narrow.toUInt64.toNat < UInt32.size := by
      rw [UInt32.toNat_toUInt64]
      exact narrow.toNat_lt
    simp only [compareSlot, marked, if_true, stored, small, UInt32.toUInt32_toUInt64, resolved]

/-- A cell passes if it agrees with its slot, and the pairing it leaves is then the map's. -/
theorem compareSlot_iff {slot : Slot} {cell : Cell} : slot.Agrees draft image cell ↔
    ∃ pairing, draft.compareSlot slot cell = .ok (.ok pairing) ∧ Follow image pairing.toList := by
  cases slot with
  | bits word =>
    by_cases same : cell.isReference = false ∧ cell.word = word
    · simp [Slot.Agrees, compareSlot, Follow, same]
    · simp only [Slot.Agrees, compareSlot, same, false_iff, eq_comm (a := word), and_comm]
      simp
  | null =>
    by_cases same : cell.isReference = true ∧ cell.word = 0
    · simp [Slot.Agrees, compareSlot, Follow, same]
    · simp only [Slot.Agrees, compareSlot, same, false_iff, and_comm]
      simp
  | ref target =>
    constructor
    · rintro ⟨marked, narrow, stored, resolved⟩
      refine ⟨_, compareSlot_ref_iff.mpr ⟨marked, narrow, stored, _, resolved, rfl⟩, ?_⟩
      simp [Follow]
    · rintro ⟨pairing, done, follow⟩
      obtain ⟨marked, narrow, stored, place, resolved, rfl⟩ := compareSlot_ref_iff.mp done
      refine ⟨marked, narrow, stored, ?_⟩
      rw [show image target = place from follow (target, place) (by simp)]
      exact resolved

private theorem compareSlots_cons_iff {slot : Slot} {cell : Cell} :
    draft.compareSlots (slot :: slots) (cell :: cells) = .ok (.ok next) ↔
      ∃ pairing others, draft.compareSlot slot cell = .ok (.ok pairing) ∧
        draft.compareSlots slots cells = .ok (.ok others) ∧ next = pairing.toList ++ others := by
  rw [compareSlots]
  constructor
  · intro done
    split at done
    · cases done
    · cases done
    · rename_i pairing first
      split at done
      · cases done
      · cases done
      · rename_i others rest
        cases done
        exact ⟨pairing, others, first, rest, rfl⟩
  · rintro ⟨pairing, others, first, rest, rfl⟩
    simp only [first, rest]

private theorem compareSlots_iff (same : slots.length = cells.length) :
    List.Forall₂ (Slot.Agrees draft image) slots cells ↔
      ∃ next, draft.compareSlots slots cells = .ok (.ok next) ∧ Follow image next := by
  induction slots generalizing cells with
  | nil =>
    obtain rfl := List.length_eq_zero_iff.mp same.symm
    exact ⟨fun _ => ⟨[], rfl, fun _ member => nomatch member⟩, fun _ => .nil⟩
  | cons slot slots ih =>
    obtain ⟨cell, cells, rfl⟩ := List.exists_cons_of_length_eq_add_one same.symm
    rw [List.forall₂_cons, compareSlot_iff, ih (Nat.succ.inj same)]
    constructor
    · rintro ⟨⟨pairing, first, here⟩, others, rest, there⟩
      exact ⟨_, compareSlots_cons_iff.mpr ⟨_, _, first, rest, rfl⟩, follow_append.mpr ⟨here, there⟩⟩
    · rintro ⟨next, done, follow⟩
      obtain ⟨pairing, others, first, rest, rfl⟩ := compareSlots_cons_iff.mp done
      obtain ⟨here, there⟩ := follow_append.mp follow
      exact ⟨⟨pairing, first, here⟩, others, rest, there⟩

private theorem map_fst_compareSlot {slot : Slot} {cell : Cell} {pairing : Option Pairing}
    (done : draft.compareSlot slot cell = .ok (.ok pairing)) :
    pairing.map Prod.fst = slot.target? := by
  cases slot with
  | bits word =>
    simp only [compareSlot] at done
    split at done <;> cases done
    rfl
  | null =>
    simp only [compareSlot] at done
    split at done <;> cases done
    rfl
  | ref target =>
    obtain ⟨_, _, _, _, _, rfl⟩ := compareSlot_ref_iff.mp done
    rfl

private theorem map_fst_compareSlots (same : slots.length = cells.length)
    (done : draft.compareSlots slots cells = .ok (.ok next)) :
    next.map Prod.fst = slots.filterMap Slot.target? := by
  induction slots generalizing cells next with
  | nil =>
    obtain rfl := List.length_eq_zero_iff.mp same.symm
    cases done
    rfl
  | cons slot slots ih =>
    obtain ⟨cell, cells, rfl⟩ := List.exists_cons_of_length_eq_add_one same.symm
    obtain ⟨pairing, others, first, rest, rfl⟩ := compareSlots_cons_iff.mp done
    rw [List.map_append, ih (Nat.succ.inj same) rest, List.filterMap_cons,
      ← map_fst_compareSlot first]
    cases pairing <;> rfl

private theorem compareObject_eq_iff {shape : ClassShape} {slots : Array Slot} :
    draft.compareObject shape slots place = .ok (.ok next) ↔ ∃ copy,
      draft.copyAt? place = .ok (some copy) ∧ copy.className = shape.name ∧
      copy.cells.size = slots.size ∧
      draft.compareSlots slots.toList copy.cells.toList = .ok (.ok next) := by
  unfold compareObject
  constructor
  · intro done
    split at done
    · cases done
    · cases done
    · rename_i copy found
      split at done
      · cases done
      · rename_i name
        split at done
        · cases done
        · rename_i size
          exact ⟨copy, found, not_not.mp name, not_not.mp size, done⟩
  · rintro ⟨copy, found, name, size, done⟩
    simp only [found, name, size, ne_eq, not_true_eq_false, if_false, done]

/-- A copy passes if it agrees with its object, and the pairings it leaves are then the map's. -/
theorem agrees_iff {seen : Portrait} : draft.Agrees image seen place ↔
    ∃ next, draft.compareObject seen.shape seen.slots place = .ok (.ok next) ∧
      Follow image next := by
  constructor
  · rintro ⟨copy, found, name, alike⟩
    have size : copy.cells.size = seen.slots.size := by simpa using alike.length_eq.symm
    obtain ⟨next, done, follow⟩ := (compareSlots_iff (by simp [size])).mp alike
    exact ⟨next, compareObject_eq_iff.mpr ⟨copy, found, name, size, done⟩, follow⟩
  · rintro ⟨next, done, follow⟩
    obtain ⟨copy, found, name, size, done⟩ := compareObject_eq_iff.mp done
    exact ⟨copy, found, name, (compareSlots_iff (by simp [size])).mpr ⟨next, done, follow⟩⟩

theorem exists_pairing_iff {shape : ClassShape} {slots : Array Slot}
    (done : draft.compareObject shape slots place = .ok (.ok next)) {target : ObjectId} :
    (∃ copy, (target, copy) ∈ next) ↔ Slot.ref target ∈ slots := by
  obtain ⟨copy, _, _, size, done⟩ := compareObject_eq_iff.mp done
  have fronts : next.map Prod.fst = targetsOf slots := map_fst_compareSlots (by simp [size]) done
  rw [← mem_targetsOf, ← fronts, List.mem_map]
  constructor
  · rintro ⟨copy, member⟩
    exact ⟨_, member, rfl⟩
  · rintro ⟨⟨_, copy⟩, member, rfl⟩
    exact ⟨copy, member⟩

/-- Where references agree with the same copies, two maps take what they reach to the
same places. -/
theorem Embeds.eq (embeds : draft.Embeds live root place image)
    (others : draft.Embeds live root place other) {object : ObjectId}
    (path : live.Reaches root object) : image object = other object := by
  induction path with
  | refl => rw [embeds.start, others.start]
  | @tail holder target path edge ih =>
    obtain ⟨seen, found, held⟩ := edge
    obtain ⟨_, here, agrees⟩ := embeds.agrees holder path
    cases found.symm.trans here
    obtain ⟨_, there, alike⟩ := others.agrees holder path
    cases found.symm.trans there
    obtain ⟨next, compared, follow⟩ := agrees_iff.mp agrees
    obtain ⟨_, again, trail⟩ := agrees_iff.mp alike
    rw [← ih, compared] at again
    cases again
    obtain ⟨copy, member⟩ := (exists_pairing_iff compared).mpr held
    exact (follow _ member).trans (trail _ member).symm

private theorem lockstep_of_embeds (embeds : draft.Embeds live root place image)
    (stack : List Pairing) (paired : Std.TreeMap ObjectId Place)
    (waiting : ∀ pairing ∈ stack, live.Reaches root pairing.1 ∧ image pairing.1 = pairing.2)
    (met : ∀ (object : ObjectId) (copy : Place), paired[object]? = some copy →
      image object = copy) :
    draft.lockstep live stack paired = .ok (.ok ()) := by
  -- what is on the stack agrees with its copy, so no comparison on the way fails
  have passes : ∀ {object : ObjectId} {copy : Place} (inside : object.index < live.objects.size),
      live.Reaches root object → image object = copy → ∃ next,
        draft.compareObject (live.shapeAt _ inside) live.objects[object.index].slots copy =
          .ok (.ok next) ∧ Follow image next := by
    rintro object _ inside path rfl
    obtain ⟨seen, found, agrees⟩ := embeds.agrees object path
    rw [Live.portrait?_eq_some inside] at found
    cases found
    exact agrees_iff.mp agrees
  fun_induction lockstep draft live stack paired with
  | case1 => rfl
  | case2 paired object rest inside _ fresh ih =>
    exact ih (fun pairing member => waiting pairing (List.mem_cons_of_mem _ member)) met
  | case3 paired object copy rest _ _ before found different =>
    exact absurd ((met object before found).symm.trans (waiting _ List.mem_cons_self).2) different
  | case4 paired object copy rest inside _ fresh breach broken =>
    obtain ⟨path, here⟩ := waiting _ List.mem_cons_self
    obtain ⟨next, compared, _⟩ := passes inside path here
    cases compared.symm.trans broken
  | case5 paired object copy rest inside _ fresh mismatch differs =>
    obtain ⟨path, here⟩ := waiting _ List.mem_cons_self
    obtain ⟨next, compared, _⟩ := passes inside path here
    cases compared.symm.trans differs
  | case6 paired object copy rest inside _ fresh next compared ih =>
    obtain ⟨path, here⟩ := waiting _ List.mem_cons_self
    obtain ⟨_, again, follow⟩ := passes inside path here
    cases again.symm.trans compared
    refine ih (fun pairing member => ?_) fun other place found => ?_
    · rcases List.mem_append.mp member with now | later
      · have member := List.mem_reverse.mp now
        have held := (exists_pairing_iff compared).mp ⟨pairing.2, member⟩
        exact ⟨path.tail ⟨_, Live.portrait?_eq_some inside, held⟩, follow pairing member⟩
      · exact waiting pairing (List.mem_cons_of_mem _ later)
    · rw [Std.TreeMap.getElem?_insert] at found
      split at found
      · rename_i same
        cases found
        rw [← Std.LawfulEqOrd.eq_of_compare same]
        exact here
      · exact met other place found
  | case7 paired object copy rest outside =>
    obtain ⟨seen, found, _⟩ := embeds.agrees object (waiting _ List.mem_cons_self).1
    exact absurd (Live.isSome_portrait?.mp (Option.isSome_of_eq_some found)) outside

/-- An object passes its comparison with a copy, and the pairings that it leaves are kept. -/
def Settled (draft : Draft) (live : Live) (paired : Std.TreeMap ObjectId Place) (object : ObjectId)
    (place : Place) : Prop :=
  ∃ seen next, live.portrait? object = some seen ∧
    draft.compareObject seen.shape seen.slots place = .ok (.ok next) ∧
    ∀ pairing ∈ next, paired[pairing.1]? = some pairing.2

private theorem exists_paired {stack : List Pairing} {paired : Std.TreeMap ObjectId Place}
    (done : draft.lockstep live stack paired = .ok (.ok ())) :
    ∃ final : Std.TreeMap ObjectId Place,
      (∀ (object : ObjectId) (copy : Place), paired[object]? = some copy →
        final[object]? = some copy) ∧
      (∀ pairing ∈ stack, final[pairing.1]? = some pairing.2) ∧
      ∀ (object : ObjectId) (copy : Place), final[object]? = some copy →
        paired[object]? = some copy ∨ draft.Settled live final object copy := by
  fun_induction lockstep draft live stack paired with
  | case1 paired =>
    exact ⟨paired, fun _ _ found => found, (fun _ member => nomatch member), fun _ _ => .inl⟩
  | case2 paired object rest inside copy found ih =>
    obtain ⟨final, keeps, holds, settled⟩ := ih done
    refine ⟨final, keeps, fun pairing member => ?_, settled⟩
    rcases List.mem_cons.mp member with rfl | later
    · exact keeps _ _ found
    · exact holds pairing later
  | case3 => cases done
  | case4 => cases done
  | case5 => cases done
  | case6 paired object copy rest inside _ fresh next compared ih =>
    obtain ⟨final, keeps, holds, settled⟩ := ih done
    refine ⟨final, fun other place found => ?_, fun pairing member => ?_,
      fun other place found => ?_⟩
    · have apart : object ≠ other := by
        rintro rfl
        cases fresh.symm.trans found
      apply keeps
      rw [Std.TreeMap.getElem?_insert, if_neg (by simpa using apart)]
      exact found
    · rcases List.mem_cons.mp member with rfl | later
      · exact keeps _ _ (by simp)
      · exact holds pairing (List.mem_append_right _ later)
    · rcases settled other place found with before | later
      · rw [Std.TreeMap.getElem?_insert] at before
        split at before
        · rename_i same
          cases before
          rw [← Std.LawfulEqOrd.eq_of_compare same]
          refine .inr ⟨_, next, Live.portrait?_eq_some inside, compared, fun pairing member => ?_⟩
          exact holds pairing (List.mem_append_left _ (List.mem_reverse.mpr member))
        · exact .inl before
      · exact .inr later
  | case7 => cases done

/-- A comparison succeeds exactly if each object has one copy that it agrees with. -/
theorem verify_ok_iff : draft.verify live root place = .ok (.ok ()) ↔
    ∃ image, draft.Embeds live root place image := by
  constructor
  · intro done
    obtain ⟨final, _, holds, settled⟩ := exists_paired done
    have rooted : final[root]? = some place := holds (root, place) List.mem_cons_self
    have settles : ∀ (object : ObjectId) (copy : Place), final[object]? = some copy →
        draft.Settled live final object copy := by
      intro object copy found
      exact (settled object copy found).resolve_left (by simp)
    have paired : ∀ object, live.Reaches root object → ∃ copy, final[object]? = some copy := by
      intro object path
      induction path with
      | refl => exact ⟨place, rooted⟩
      | @tail holder target _ edge ih =>
        obtain ⟨copy, found⟩ := ih
        obtain ⟨seen, next, here, compared, kept⟩ := settles holder copy found
        obtain ⟨_, there, held⟩ := edge
        cases here.symm.trans there
        obtain ⟨other, member⟩ := (exists_pairing_iff compared).mpr held
        exact ⟨other, kept _ member⟩
    refine ⟨fun object => final[object]?.getD place, by simp [rooted], fun object path => ?_⟩
    obtain ⟨copy, found⟩ := paired object path
    obtain ⟨seen, next, here, compared, kept⟩ := settles object copy found
    refine ⟨seen, here, agrees_iff.mpr ⟨next, ?_, fun pairing member => ?_⟩⟩
    · simpa [found] using compared
    · simp [kept pairing member]
  · rintro ⟨image, embeds⟩
    refine lockstep_of_embeds embeds _ _ (fun pairing member => ?_) fun object copy found => ?_
    · obtain rfl := List.mem_singleton.mp member
      exact ⟨.refl, embeds.start⟩
    · simp at found

private theorem Merges.not_isomorphic (merges : draft.Merges live root place) :
    ¬ draft.Isomorphic live root place := by
  rintro ⟨image, embeds, apart⟩
  obtain ⟨other, others, one, two, left, right, different, same⟩ := merges
  rw [← embeds.eq others left, ← embeds.eq others right] at same
  exact different (apart left right same)

/-- A graph of copies that passes its comparison is the live graph, or merges objects of it. -/
theorem isomorphic_iff : draft.Isomorphic live root place ↔
    draft.verify live root place = .ok (.ok ()) ∧ ¬ draft.Merges live root place := by
  constructor
  · intro isomorphic
    obtain ⟨image, embeds, _⟩ := id isomorphic
    exact ⟨verify_ok_iff.mpr ⟨image, embeds⟩, fun merges => merges.not_isomorphic isomorphic⟩
  · rintro ⟨done, apart⟩
    obtain ⟨image, embeds⟩ := verify_ok_iff.mp done
    refine ⟨image, embeds, fun one left two right same => ?_⟩
    by_contra different
    exact apart ⟨image, embeds, one, two, left, right, different, same⟩

namespace Framed

variable (framed : draft.Framed)
include framed

private theorem exists_compareSlot (slot : Slot) (cell : Cell) :
    ∃ answer, draft.compareSlot slot cell = .ok answer := by
  cases slot with
  | bits word => exact ⟨_, rfl⟩
  | null => exact ⟨_, rfl⟩
  | ref target =>
    obtain ⟨place, resolved⟩ := framed.exists_resolve? cell.word.toUInt32
    simp only [compareSlot, resolved]
    cases place <;> split <;> try split
    all_goals exact ⟨_, rfl⟩

private theorem exists_compareSlots (slots : List Slot) (cells : List Cell) :
    ∃ answer, draft.compareSlots slots cells = .ok answer := by
  induction slots generalizing cells with
  | nil => exact ⟨_, rfl⟩
  | cons slot slots ih =>
    cases cells with
    | nil => exact ⟨_, rfl⟩
    | cons cell cells =>
      obtain ⟨first, here⟩ := framed.exists_compareSlot slot cell
      obtain ⟨rest, there⟩ := ih cells
      simp only [compareSlots, here, there]
      cases first with
      | error mismatch => exact ⟨_, rfl⟩
      | ok pairing => cases rest <;> exact ⟨_, rfl⟩

private theorem exists_compareObject (shape : ClassShape) (slots : Array Slot) (place : Place) :
    ∃ answer, draft.compareObject shape slots place = .ok answer := by
  obtain ⟨copy, found⟩ := framed.exists_copyAt? place
  simp only [compareObject, found]
  cases copy with
  | none => exact ⟨_, rfl⟩
  | some copy =>
    simp only
    split
    · exact ⟨_, rfl⟩
    · split
      · exact ⟨_, rfl⟩
      · exact framed.exists_compareSlots _ _

/-- A comparison with a heap that has no dangling references has an answer. -/
theorem exists_lockstep (closed : live.Closed) (stack : List Pairing)
    (paired : Std.TreeMap ObjectId Place)
    (present : ∀ pairing ∈ stack, pairing.1.index < live.objects.size) :
    ∃ outcome, draft.lockstep live stack paired = .ok outcome := by
  fun_induction lockstep draft live stack paired with
  | case1 => exact ⟨_, rfl⟩
  | case2 paired object rest inside copy found ih =>
    exact ih fun pairing member => present pairing (List.mem_cons_of_mem _ member)
  | case3 => exact ⟨_, rfl⟩
  | case4 paired object copy rest inside shape fresh breach broken =>
    obtain ⟨answer, compared⟩ :=
      framed.exists_compareObject shape live.objects[object.index].slots copy
    cases broken.symm.trans compared
  | case5 => exact ⟨_, rfl⟩
  | case6 paired object copy rest inside _ fresh next compared ih =>
    refine ih fun pairing member => ?_
    rcases List.mem_append.mp member with now | later
    · have held := (exists_pairing_iff compared).mp ⟨pairing.2, List.mem_reverse.mp now⟩
      exact closed.slots object _ ⟨_, Live.portrait?_eq_some inside, held⟩
    · exact present pairing (List.mem_cons_of_mem _ later)
  | case7 paired object copy rest outside =>
    exact absurd (present _ List.mem_cons_self) outside

end Framed
end Draft
end FrozenHeap
