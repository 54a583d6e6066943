import FrozenHeap.Proofs.Live
import FrozenHeap.Proofs.Parallel
import FrozenHeap.Proofs.Reach
import FrozenHeap.Screening

namespace FrozenHeap

/-- Slots that hold the same, but for what objects are called. -/
inductive Slot.Alike (twin : ObjectId → ObjectId → Prop) : Slot → Slot → Prop where
  | bits {word : UInt64} : Alike twin (.bits word) (.bits word)
  | null : Alike twin .null .null
  | ref {one two : ObjectId} (here : twin one two) : Alike twin (.ref one) (.ref two)

namespace Live

/-- Classes of two heaps that have the same shape. -/
def Kin (left right : Live) (former latter : ClassId) : Prop :=
  ∃ one two, left.classes[former.index]? = some one ∧ right.classes[latter.index]? = some two ∧
    one.shape = two.shape

/-- Kin whose static fields hold the same, but for what objects are called. -/
def Peers (left right : Live) (twin : ObjectId → ObjectId → Prop) (former latter : ClassId) :
    Prop :=
  ∃ one two, left.classes[former.index]? = some one ∧ right.classes[latter.index]? = some two ∧
    one.shape = two.shape ∧
    List.Forall₂ (Slot.Alike twin) one.statics.toList two.statics.toList

variable {left right : Live} {former latter : ClassId}

theorem Peers.kin {twin : ObjectId → ObjectId → Prop}
    (peers : left.Peers right twin former latter) :
    left.Kin right former latter := by
  obtain ⟨one, two, first, second, same, _⟩ := peers
  exact ⟨one, two, first, second, same⟩

theorem Kin.named (kin : left.Kin right former latter) :
    ∃ name, left.classNamed? name = some former ∧ right.classNamed? name = some latter := by
  obtain ⟨one, two, first, second, same⟩ := kin
  exact ⟨one.shape.name, classNamed?_of_getElem? first, same ▸ classNamed?_of_getElem? second⟩

/-- Two classes of a heap are not kin to the same class. -/
theorem kin_biUnique (left right : Live) : Relator.BiUnique (left.Kin right) := by
  refine ⟨fun one two common first second => ?_, fun common one two first second => ?_⟩
  · obtain ⟨name, here, there⟩ := first.named
    obtain ⟨other, also, again⟩ := second.named
    cases name_inj there again
    exact Option.some.inj (here.symm.trans also)
  · obtain ⟨name, here, there⟩ := first.named
    obtain ⟨other, also, again⟩ := second.named
    cases name_inj here also
    exact Option.some.inj (there.symm.trans again)

theorem peers_biUnique (left right : Live) (twin : ObjectId → ObjectId → Prop) :
    Relator.BiUnique (left.Peers right twin) :=
  ⟨fun _ _ _ first second => (kin_biUnique left right).left first.kin second.kin,
    fun _ _ _ first second => (kin_biUnique left right).right first.kin second.kin⟩

theorem Kin.shapeOf (kin : left.Kin right former latter) :
    ∃ shape, left.shapeOf former = .ok shape ∧ right.shapeOf latter = .ok shape := by
  obtain ⟨one, two, first, second, same⟩ := kin
  refine ⟨one.shape, ?_, same ▸ ?_⟩
  · simp only [Live.shapeOf, entryAt, first, bind, Except.bind, pure, Except.pure]
  · simp only [Live.shapeOf, entryAt, second, bind, Except.bind, pure, Except.pure]

theorem Peers.static? {twin : ObjectId → ObjectId → Prop}
    (peers : left.Peers right twin former latter) (offset : UInt32) :
    Option.Rel (Slot.Alike twin) (left.static? former offset) (right.static? latter offset) := by
  obtain ⟨one, two, first, second, _, alike⟩ := peers
  simp only [Live.static?, LoadedClass.static?, first, second, Option.bind_eq_bind,
    Option.bind_some]
  cases staticIndex? offset with
  | none => exact .none
  | some index =>
    simp only [Option.bind_some, ← Array.getElem?_toList]
    exact forall₂_getElem? alike index

end Live

/-- A pairing of objects of two heaps. Twins have classes of the same shape, and slots that hold the
same but for what objects are called, and so have the static fields of the classes of some names. -/
structure Matching (left right : Live) where
  twin : ObjectId → ObjectId → Prop
  /-- The names of the classes whose static fields lead into the paired graphs. -/
  names : List String
  unique : Relator.BiUnique twin
  portraits : ∀ one two, twin one two → ∃ former latter, left.portrait? one = some former ∧
    right.portrait? two = some latter ∧ former.shape = latter.shape ∧
    List.Forall₂ (Slot.Alike twin) former.slots.toList latter.slots.toList
  named : ∀ name ∈ names,
    Option.Rel (left.Peers right twin) (left.classNamed? name) (right.classNamed? name)

/-- The references among slots that hold the same lead to twins. -/
theorem targetsOf_alike {twin : ObjectId → ObjectId → Prop} {slots others : Array Slot}
    (alike : List.Forall₂ (Slot.Alike twin) slots.toList others.toList) :
    List.Forall₂ twin (targetsOf slots) (targetsOf others) := by
  refine List.rel_filterMap (fun one two here => ?_) alike
  cases here with
  | bits => exact .none
  | null => exact .none
  | ref here => exact .some here

namespace Matching

variable {left right : Live} (pairs : Matching left right)

/-- What a search through the first heap and one through the second see of twins. -/
theorem exists_portraits {one two : ObjectId} (twins : pairs.twin one two) :
    ∃ (inside : one.index < left.objects.size) (within : two.index < right.objects.size),
      left.shapeAt _ inside = right.shapeAt _ within ∧
      left.Kin right left.objects[one.index].ofClass right.objects[two.index].ofClass ∧
      List.Forall₂ (Slot.Alike pairs.twin) left.objects[one.index].slots.toList
        right.objects[two.index].slots.toList := by
  obtain ⟨former, latter, first, second, shapes, alike⟩ := pairs.portraits one two twins
  have inside := Live.isSome_portrait?.mp (Option.isSome_of_eq_some first)
  have within := Live.isSome_portrait?.mp (Option.isSome_of_eq_some second)
  rw [Live.portrait?_eq_some inside] at first
  rw [Live.portrait?_eq_some within] at second
  cases first
  cases second
  exact ⟨inside, within, shapes, ⟨_, _, Array.getElem?_eq_getElem (left.classified _ inside),
    Array.getElem?_eq_getElem (right.classified _ within), shapes⟩, alike⟩

private theorem eq_iff {one two other another : ObjectId} (twins : pairs.twin one two)
    (others : pairs.twin other another) : one = other ↔ two = another :=
  Relator.rel_eq pairs.unique twins others

/-- Two sets of objects have the same twins among them. -/
def Sets (set other : ObjectId → Bool) : Prop :=
  ∀ one two, pairs.twin one two → set one = other two

/-- Two tables of objects say the same of twins. -/
def Tables (table other : ObjectId → Option Place) : Prop :=
  ∀ one two, pairs.twin one two → table one = other two

variable {pairs} {one two : ObjectId}

/-- Comparing with an object gives the same as comparing with its twin. -/
theorem compare_eq (twins : pairs.twin one two) {other another : ObjectId}
    (others : pairs.twin other another) :
    (compare one other == .eq) = (compare two another == .eq) := by
  rw [Bool.eq_iff_iff]
  simp only [beq_iff_eq, Std.LawfulEqOrd.compare_eq_iff_eq, pairs.eq_iff twins others]

end Matching
end FrozenHeap
