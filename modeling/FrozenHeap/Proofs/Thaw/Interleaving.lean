import FrozenHeap.Proofs.Process
import FrozenHeap.Proofs.Thaw.Returning

/-! Copies among other changes. Objects are copied into a live heap in any order, while classes are
defined there and other objects allocated; whether a call succeeds or fails, the copies of before
stay complete. -/

namespace FrozenHeap

namespace Loaded

/-- An object that can be read refers to an address. -/
def Points (loaded : Loaded) (holder target : UInt64) : Prop :=
  ∃ object, loaded.objectAt? holder = some object ∧ target ∈ object.targets

/-- References lead from the first address to the second. -/
def Leads (loaded : Loaded) : UInt64 → UInt64 → Prop := Relation.ReflTransGen loaded.Points

end Loaded

namespace Thaw

/-- The object at an address can be read, and its class is defined in the heap. -/
def Copyable (loaded : Loaded) (heap : Live) (address : UInt64) : Prop :=
  ∃ object ofClass, loaded.objectAt? address = some object ∧
    heap.classNamed? object.className = some ofClass

/-- What a call to copy an object answers and leaves. -/
structure Answered (loaded : Loaded) (thaw : Thaw) (address : UInt64) (answer : Option ObjectId)
    (after : Thaw) : Prop where
  sound : Sound loaded after
  isSome_iff : answer.isSome = true ↔
    ∀ target, loaded.Leads address target → Copyable loaded thaw.heap target
  copied : ∀ copy, answer = some copy → after.copies[address]? = some copy
  forgets : answer = none → after.copies = thaw.copies
  grows : thaw.heap.Grows after.heap

/-- What is done to a heap that takes in archived objects. -/
inductive Deed where
  | copy (address : UInt64)
  | define (shape : ClassShape)
  | alloc (ofClass : ClassId) (slots : Array Slot)

def act (loaded : Loaded) (thaw : Thaw) : Deed → Run Thaw
  | .copy address => do return (← thaw.object loaded address).2
  | .define shape => do return { thaw with heap := (← thaw.heap.define shape).2 }
  | .alloc ofClass slots => do return { thaw with heap := (← thaw.heap.alloc ofClass slots).2 }

variable {loaded : Loaded} {heap next : Live} {stack : List UInt64} {copies : Thawed}
  {made : Array (FrozenObject × ObjectId)} {thaw after : Thaw} {address : UInt64}
  {answer : Option ObjectId}

private theorem exists_culprit (done : allocate loaded heap stack copies made = .ok (none, next)) :
    ∃ waiting ∈ stack, ∃ culprit, loaded.Leads waiting culprit ∧
      ¬ Copyable loaded heap culprit := by
  fun_induction allocate loaded heap stack copies made with
  | case1 => cases done
  | case2 heap copies made address rest absent missing =>
    refine ⟨address, List.mem_cons_self, address, .refl, ?_⟩
    rintro ⟨object, _, found, _⟩
    cases missing.symm.trans found
  | case3 heap copies made address rest absent object found unknown =>
    refine ⟨address, List.mem_cons_self, address, .refl, ?_⟩
    rintro ⟨_, ofClass, read, named⟩
    cases found.symm.trans read
    cases unknown.symm.trans named
  | case4 => cases done
  | case5 heap copies made address rest absent object found ofClass known copy next allocated
      _ ih =>
    obtain ⟨waiting, member, culprit, path, stuck⟩ := ih done
    have stuck : ¬ Copyable loaded heap culprit := by
      simpa only [Copyable, Live.classNamed?_congr (Live.alloc_ok allocated).2.1] using stuck
    rcases List.mem_append.mp member with target | later
    · have edge : loaded.Points address waiting := ⟨object, found, List.mem_reverse.mp target⟩
      exact ⟨address, List.mem_cons_self, culprit, .head edge path, stuck⟩
    · exact ⟨waiting, List.mem_cons_of_mem _ later, culprit, path, stuck⟩
  | case6 heap copies made address rest present ih =>
    obtain ⟨waiting, member, refused⟩ := ih done
    exact ⟨waiting, List.mem_cons_of_mem _ member, refused⟩

private theorem object_grows (done : thaw.object loaded address = .ok (answer, after)) :
    thaw.heap.Grows after.heap := by
  obtain ⟨next, allocated, rfl, rfl⟩ | ⟨grown, all, next, linked, allocated, links, rfl, rfl⟩ :=
    object_eq_ok_iff.mp done
  · exact (allocate_keeps allocated).2
  obtain ⟨_, again, classes, size, untouched, _⟩ := (allocating_of_allocate allocated).links
  cases again.symm.trans links
  exact ⟨fun name ofClass found => by rw [Live.classNamed?_congr classes, found],
    size ▸ (allocate_keeps allocated).2.size, untouched⟩

/-- A copy that fails is forgotten, and something that it would need cannot be copied. -/
theorem object_none (done : thaw.object loaded address = .ok (none, after)) :
    after.copies = thaw.copies ∧
      ∃ culprit, loaded.Leads address culprit ∧ ¬ Copyable loaded thaw.heap culprit := by
  obtain ⟨next, allocated, _, rfl⟩ | ⟨grown, all, next, linked, allocated, _, absent, _⟩ :=
    object_eq_ok_iff.mp done
  · obtain ⟨waiting, member, refused⟩ := exists_culprit allocated
    rw [List.mem_singleton.mp member] at refused
    exact ⟨rfl, refused⟩
  · have asked := (allocating_of_allocate allocated).asked
    have known : address ∈ grown := asked.resolve_right (nomatch ·)
    obtain ⟨copy, there⟩ := mem_copies_iff.mp known
    cases absent.trans there

theorem Sound.grow (sound : Sound loaded thaw) (same : after.copies = thaw.copies)
    (grows : thaw.heap.Grows after.heap) : Sound loaded after where
  injective := same ▸ sound.injective
  complete address copy known := by
    rw [same] at known ⊢
    obtain ⟨object, ofClass, read, named, held, closed⟩ := sound.complete address copy known
    refine ⟨object, ofClass, read, grows.classes _ _ named, ?_, closed⟩
    rw [grows.objects _ (sound.index_lt known), held]

private theorem Sound.mem_of_leads (sound : Sound loaded thaw) {target : UInt64}
    (known : address ∈ thaw.copies) (path : loaded.Leads address target) :
    target ∈ thaw.copies := by
  induction path with
  | refl => exact known
  | tail _ edge ih =>
    obtain ⟨copy, here⟩ := mem_copies_iff.mp ih
    obtain ⟨object, found, refers⟩ := edge
    obtain ⟨other, _, read, _, _, closed⟩ := sound.complete _ copy here
    cases found.symm.trans read
    exact closed _ refers

/-- A copy is made if all that it needs can be copied, and complete then; else nothing is left of it
but objects that no copy refers to. -/
theorem Sound.answered (sound : Sound loaded thaw)
    (done : thaw.object loaded address = .ok (answer, after)) :
    Answered loaded thaw address answer after := by
  have grows := object_grows done
  cases answer with
  | none =>
    obtain ⟨same, culprit, path, stuck⟩ := object_none done
    refine ⟨sound.grow same grows, ?_, (fun _ made => nomatch made), fun _ => same, grows⟩
    simp only [Option.isSome_none, Bool.false_eq_true, false_iff]
    exact fun copyable => stuck (copyable culprit path)
  | some copy =>
    have made : Sound loaded after ∧ Grows thaw after ∧ after.copies[address]? = some copy ∧
        (Confined 0 (fun _ => True) thaw → Confined 0 (fun _ => True) after) :=
      object_some (fun _ _ _ _ _ _ => trivial) sound trivial done
    obtain ⟨finished, grown, known, _⟩ := made
    refine ⟨finished, ?_, fun _ same => Option.some.inj same ▸ known,
      (fun absent => nomatch absent), grows⟩
    simp only [Option.isSome_some, true_iff]
    intro target path
    obtain ⟨other, there⟩ :=
      mem_copies_iff.mp (finished.mem_of_leads (mem_copies_iff.mpr ⟨copy, known⟩) path)
    obtain ⟨object, ofClass, read, named, _⟩ := finished.complete target other there
    exact ⟨object, ofClass, read, by rw [← named, Live.classNamed?_congr grown.classes]⟩

theorem Sound.act (sound : Sound loaded thaw) {deed : Deed}
    (done : thaw.act loaded deed = .ok after) :
    Sound loaded after := by
  cases deed with
  | copy address =>
    obtain ⟨⟨answer, later⟩, ran, same⟩ := bind_eq_ok_iff.mp done
    cases same
    exact (sound.answered ran).sound
  | define shape =>
    obtain ⟨⟨ofClass, later⟩, defined, same⟩ := bind_eq_ok_iff.mp done
    cases same
    exact sound.grow rfl (Live.grows_define defined)
  | alloc ofClass slots =>
    obtain ⟨⟨object, later⟩, allocated, same⟩ := bind_eq_ok_iff.mp done
    cases same
    exact sound.grow rfl (Live.grows_alloc allocated)

/-- Whatever was copied, defined and allocated before, and whatever failed, all copies are complete,
and each further call to copy an object answers by what the heap has then. -/
theorem answered_of_deeds (loaded : Loaded) (heap : Live) {deeds : List Deed}
    (done : deeds.foldlM (act loaded) (start heap) = .ok thaw) :
    Sound loaded thaw ∧ ∀ address,
      (∀ met, Passes loaded thaw.heap [address] thaw.copies met → met.objects.size < UInt32.size) →
      ∃ answer after, thaw.object loaded address = .ok (answer, after) ∧
        Answered loaded thaw address answer after := by
  have fresh : Sound loaded (start heap) := by
    constructor
    · intro address other copy known
      simp [start] at known
    · intro address copy known
      simp [start] at known
  have sound : Sound loaded thaw :=
    foldlM_preserves (Sound loaded) (fun _ _ _ _ acted sound => sound.act acted) fresh done
  refine ⟨sound, fun address room => ?_⟩
  obtain ⟨answer, after, ran, _⟩ := exists_object room
  exact ⟨answer, after, ran, sound.answered ran⟩

/-- An object is copied before its class is defined, and another one is allocated. -/
def hastyDeeds : List Deed :=
  [.copy 0x100000000, .define (.named "Node" .plain), .alloc ⟨0⟩ #[.ref ⟨0⟩]]

/-- An object that could not be copied is copied once its class is defined. -/
theorem answered_of_deeds_hasty : ∃ mapped outcome loaded thaw copy after,
    Loaded.load .entangled true Process.headerMapper = .ok mapped ∧
    mapped.fixup = .ok (outcome, loaded) ∧
    hastyDeeds.foldlM (act loaded) (start .empty) = .ok thaw ∧
    thaw.object loaded 0x100000000 = .ok (some copy, after) ∧
    Answered loaded thaw 0x100000000 (some copy) after := by
  have ran : (Loaded.load .entangled true Process.headerMapper).toOption.any (fun mapped =>
      mapped.fixup.toOption.any fun called =>
        (hastyDeeds.foldlM (act called.2) (start .empty)).toOption.any fun thaw =>
          (allocate called.2 thaw.heap [0x100000000] thaw.copies #[]).toOption.any (fun copied =>
            decide (copied.2.objects.size = 3)) &&
          (thaw.object called.2 0x100000000).toOption.any (·.1.isSome)) = true := by decide +kernel
  obtain ⟨mapped, loads, ran⟩ := any_toOption_iff.mp ran
  obtain ⟨⟨outcome, loaded⟩, called, ran⟩ := any_toOption_iff.mp ran
  obtain ⟨thaw, done, ran⟩ := any_toOption_iff.mp ran
  obtain ⟨sized, copied⟩ := (Bool.and_eq_true _ _).mp ran
  obtain ⟨⟨_, last⟩, allocated, sized⟩ := any_toOption_iff.mp sized
  obtain ⟨_, again, copied⟩ := any_toOption_iff.mp copied
  obtain ⟨_, answers⟩ := answered_of_deeds loaded .empty done
  obtain ⟨answer, after, object, answered⟩ := answers 0x100000000 fun met passes => by
    have bound := passes.size_le allocated
    have size : last.objects.size = 3 := of_decide_eq_true sized
    have small : 3 < UInt32.size := by decide
    omega
  cases again.symm.trans object
  obtain ⟨copy, rfl⟩ := Option.isSome_iff_exists.mp copied
  exact ⟨mapped, outcome, loaded, thaw, copy, after, loads, called, done, object, answered⟩

end Thaw
end FrozenHeap
