import FrozenHeap.Proofs.Thaw.Linking
import Mathlib.Data.List.Nodup
import Mathlib.Data.List.Perm.Subperm

namespace FrozenHeap

private theorem Resident.address_of_objectAt? {resident : Resident} {names : Array String}
    {address : UInt64}
    {object : FrozenObject} (found : resident.objectAt? names address = some object) :
    object.address = address := by
  unfold objectAt? at found
  simp only at found
  split at found
  · obtain ⟨header, _, found⟩ := Option.bind_eq_some_iff.mp found
    split at found
    · obtain ⟨name, _, same⟩ := Option.bind_eq_some_iff.mp found
      cases same
      rfl
    · cases found
  · cases found

private theorem Loaded.address_of_objectAt? {loaded : Loaded} {address : UInt64}
    {object : FrozenObject}
    (found : loaded.objectAt? address = some object) : object.address = address := by
  obtain ⟨resident, _, found⟩ := Option.bind_eq_some_iff.mp found
  exact resident.address_of_objectAt? found

namespace Thaw

variable {loaded : Loaded} {holds : UInt64 → Prop} {before heap : Live} {old copies : Thawed}
  {root : UInt64} {made : Array (FrozenObject × ObjectId)}

/-- References lead from addresses that a predicate holds for to such addresses only. -/
def Follows (loaded : Loaded) (holds : UInt64 → Prop) : Prop :=
  ∀ address object, holds address → loaded.objectAt? address = some object →
    ∀ target ∈ object.targets, holds target

/-- What had a copy or waited has a copy or waits when the first address of the stack
is done with. -/
theorem done_or_waits {target address : UInt64} {rest later : List UInt64} {copies grown : Thawed}
    (known : address ∈ grown) (keeps : ∀ other ∈ copies, other ∈ grown)
    (moves : ∀ other ∈ rest, other ∈ later) (waits : target ∈ copies ∨ target ∈ address :: rest) :
    target ∈ grown ∨ target ∈ later := by
  rcases waits with done | waits
  · exact .inl (keeps target done)
  · rcases List.mem_cons.mp waits with rfl | behind
    · exact .inl known
    · exact .inr (moves target behind)

/-- The copies are those of before and those that were made. -/
def Recounted (old copies : Thawed) (made : Array (FrozenObject × ObjectId)) : Prop :=
  ∀ (address : UInt64) (copy : ObjectId), copies[address]? = some copy ↔
    old[address]? = some copy ∨ ∃ pair ∈ made, pair.1.address = address ∧ pair.2 = copy

theorem Recounted.push (recounted : Recounted old copies made) {object : FrozenObject}
    (absent : object.address ∉ copies) (copy : ObjectId) :
    Recounted old (copies.insert object.address copy) (made.push (object, copy)) := by
  intro address another
  rw [Std.TreeMap.getElem?_insert]
  by_cases same : object.address = address
  · subst same
    simp only [Std.compare_self, if_true]
    constructor
    · intro new
      cases new
      exact .inr ⟨_, Array.mem_push_self, rfl, rfl⟩
    · rintro (before | ⟨pair, member, here, rfl⟩)
      · exact absurd (mem_copies_iff.mpr ⟨_, (recounted _ _).mpr (.inl before)⟩) absent
      · rcases Array.mem_push.mp member with before | rfl
        · exact absurd (mem_copies_iff.mpr ⟨_,
            (recounted _ _).mpr (.inr ⟨pair, before, here, rfl⟩)⟩) absent
        · rfl
  · have apart : ¬ compare object.address address = .eq := fun equal =>
      same (Std.LawfulEqOrd.eq_of_compare equal)
    rw [if_neg apart, recounted]
    refine or_congr_right ⟨?_, ?_⟩
    · rintro ⟨pair, member, here, copied⟩
      exact ⟨pair, Array.mem_push_of_mem _ member, here, copied⟩
    · rintro ⟨pair, member, here, copied⟩
      rcases Array.mem_push.mp member with before | rfl
      · exact ⟨pair, before, here, copied⟩
      · exact absurd here same

/-- What has been allocated for the objects that are reachable from an address, since a heap and its
copies, while more addresses wait on a stack. -/
structure Allocating (loaded : Loaded) (holds : UInt64 → Prop) (before : Live) (old : Thawed)
    (root : UInt64) (stack : List UInt64) (heap : Live) (copies : Thawed)
    (made : Array (FrozenObject × ObjectId)) : Prop where
  classes : heap.classes = before.classes
  size : heap.objects.size = before.objects.size + made.size
  kept : ∀ index, index < before.objects.size → heap.objects[index]? = before.objects[index]?
  position : ∀ (index : Nat) pair, made[index]? = some pair →
    pair.2 = ⟨before.objects.size + index⟩
  read : ∀ pair ∈ made, loaded.objectAt? pair.1.address = some pair.1
  fresh : ∀ pair ∈ made, old[pair.1.address]? = none
  blank : ∀ pair ∈ made, ∃ ofClass, before.classNamed? pair.1.className = some ofClass ∧
    heap.objects[pair.2.index]? = some ⟨ofClass, pair.1.blankSlots⟩
  copied : Recounted old copies made
  sought : ∀ address ∈ stack, holds address
  held : ∀ pair ∈ made, holds pair.1.address
  asked : root ∈ copies ∨ root ∈ stack
  pending : ∀ pair ∈ made, ∀ target ∈ pair.1.targets, target ∈ copies ∨ target ∈ stack

namespace Allocating

theorem start (sought : holds root) :
    Allocating loaded holds before old root [root] before old #[] where
  classes := rfl
  size := rfl
  kept _ _ := rfl
  position _ _ found := by simp at found
  read _ member := by simp at member
  fresh _ member := by simp at member
  blank _ member := by simp at member
  copied _ _ := by simp
  sought address member := by
    rw [List.mem_singleton.mp member]
    exact sought
  held _ member := by simp at member
  asked := .inr List.mem_cons_self
  pending _ member := by simp at member

variable {address : UInt64} {rest : List UInt64}

theorem skip
    (allocating : Allocating loaded holds before old root (address :: rest) heap copies made)
    (known : address ∈ copies) : Allocating loaded holds before old root rest heap copies made := by
  have leave {target : UInt64} (waits : target ∈ copies ∨ target ∈ address :: rest) :=
    done_or_waits known (fun _ done => done) (fun other member => member) waits
  exact { allocating with
    sought := fun other member => allocating.sought other (List.mem_cons_of_mem _ member)
    asked := leave allocating.asked
    pending := fun pair member target refers =>
      leave (allocating.pending pair member target refers) }

/-- An object is allocated for an address that has no copy. -/
theorem step
    (allocating : Allocating loaded holds before old root (address :: rest) heap copies made)
    (follows : Follows loaded holds) (absent : address ∉ copies) {object : FrozenObject}
    (found : loaded.objectAt? address = some object) {ofClass : ClassId}
    (known : heap.classNamed? object.className = some ofClass) {copy : ObjectId} {next : Live}
    (done : heap.alloc ofClass object.blankSlots = .ok (copy, next)) :
    Allocating loaded holds before old root (object.targets.reverse ++ rest) next
      (copies.insert address copy) (made.push (object, copy)) := by
  obtain ⟨rfl, classes, objects⟩ := Live.alloc_ok done
  have here := Loaded.address_of_objectAt? found
  have sought := allocating.sought address List.mem_cons_self
  have earlier (index : Nat) (inside : index < heap.objects.size) :
      next.objects[index]? = heap.objects[index]? := by
    rw [objects, Array.getElem?_push_lt inside, Array.getElem?_eq_getElem inside]
  have leave {target : UInt64} (waits : target ∈ copies ∨ target ∈ address :: rest) :
      target ∈ copies.insert address ⟨heap.objects.size⟩ ∨
        target ∈ object.targets.reverse ++ rest :=
    done_or_waits Std.TreeMap.mem_insert_self (fun _ done => Std.TreeMap.mem_insert.mpr (.inr done))
      (fun _ member => List.mem_append_right _ member) waits
  constructor
  case classes =>
    exact classes.trans allocating.classes
  case size =>
    rw [objects, Array.size_push, Array.size_push, allocating.size]
    rfl
  case kept =>
    intro index inside
    rw [earlier index (by rw [allocating.size]; omega)]
    exact allocating.kept index inside
  case position =>
    intro index pair present
    rw [Array.getElem?_push] at present
    split at present
    · rename_i last
      cases present
      rw [last, allocating.size]
    · exact allocating.position index pair present
  case read =>
    intro pair member
    rcases Array.mem_push.mp member with prior | rfl
    · exact allocating.read pair prior
    · rw [here]
      exact found
  case fresh =>
    intro pair member
    rcases Array.mem_push.mp member with prior | rfl
    · exact allocating.fresh pair prior
    · rw [here, Option.eq_none_iff_forall_ne_some]
      exact fun copy uncopied =>
        absent (mem_copies_iff.mpr ⟨copy, (allocating.copied address copy).mpr (.inl uncopied)⟩)
  case blank =>
    intro pair member
    rcases Array.mem_push.mp member with prior | rfl
    · obtain ⟨ofClass, named, blank⟩ := allocating.blank pair prior
      refine ⟨ofClass, named, ?_⟩
      rw [earlier _ (Array.getElem?_eq_some_iff.mp blank).1, blank]
    · refine ⟨ofClass, ?_, ?_⟩
      · rw [← known, Live.classNamed?_congr allocating.classes]
      · simp [objects]
  case copied =>
    rw [← here] at absent ⊢
    exact allocating.copied.push absent _
  case sought =>
    intro target member
    rcases List.mem_append.mp member with refers | behind
    · exact follows address object sought found target (List.mem_reverse.mp refers)
    · exact allocating.sought target (List.mem_cons_of_mem _ behind)
  case held =>
    intro pair member
    rcases Array.mem_push.mp member with prior | rfl
    · exact allocating.held pair prior
    · rw [here]
      exact sought
  case asked =>
    exact leave allocating.asked
  case pending =>
    intro pair member target refers
    rcases Array.mem_push.mp member with prior | rfl
    · exact leave (allocating.pending pair prior target refers)
    · exact .inr (List.mem_append_left _ (List.mem_reverse.mpr refers))

theorem run {stack : List UInt64} {grown : Thawed} {all : Array (FrozenObject × ObjectId)}
    {after : Live} (follows : Follows loaded holds)
    (allocating : Allocating loaded holds before old root stack heap copies made)
    (done : allocate loaded heap stack copies made = .ok (some (grown, all), after)) :
    Allocating loaded holds before old root [] after grown all := by
  fun_induction allocate loaded heap stack copies made with
  | case1 =>
    cases done
    exact allocating
  | case2 => cases done
  | case3 => cases done
  | case4 => cases done
  | case5 heap copies made address rest absent object found ofClass known copy next allocated
      _ ih =>
    refine ih (allocating.step follows ?_ found known allocated) done
    rw [← Std.TreeMap.contains_iff_mem, absent]
    exact Bool.false_ne_true
  | case6 heap copies made address rest present ih =>
    refine ih (allocating.skip ?_) done
    rw [← Std.TreeMap.contains_iff_mem]
    exact Bool.of_not_eq_false present

private theorem old_lt (allocating : Allocating loaded holds before old root [] heap copies made)
    {pair : FrozenObject × ObjectId} (member : pair ∈ made) :
    before.objects.size ≤ pair.2.index := by
  obtain ⟨index, present⟩ := Array.mem_iff_getElem?.mp member
  rw [allocating.position index pair present]
  exact Nat.le_add_right _ _

/-- Different objects are allocated for different addresses. -/
theorem distinct (allocating : Allocating loaded holds before old root [] heap copies made) :
    (made.toList.map (·.2)).Nodup := by
  have positions : made.toList.map (·.2) =
      (List.range made.size).map fun index => ⟨before.objects.size + index⟩ := by
    apply List.ext_getElem (by simp)
    intro index inside _
    rw [List.length_map, Array.length_toList] at inside
    simp only [List.getElem_map, List.getElem_range, Array.getElem_toList]
    exact allocating.position index _ (Array.getElem?_eq_getElem inside)
  rw [positions]
  apply List.nodup_range.map
  intro left right different
  simpa using different

private theorem blanks (allocating : Allocating loaded holds before old root [] heap copies made) :
    ∀ pair ∈ made.toList, ∃ ofClass,
      heap.objects[pair.2.index]? = some ⟨ofClass, pair.1.blankSlots⟩ := by
  intro pair member
  obtain ⟨ofClass, _, blank⟩ := allocating.blank pair (Array.mem_toList_iff.mp member)
  exact ⟨ofClass, blank⟩

/-- Linking fills in the objects that were allocated, and changes none of before. -/
theorem links (allocating : Allocating loaded holds before old root [] heap copies made) :
    ∃ linked, made.toList.foldlM (fun heap (object, copy) => link copies heap object copy) heap =
        .ok linked ∧
      linked.classes = before.classes ∧ linked.objects.size = heap.objects.size ∧
      (∀ index < before.objects.size, linked.objects[index]? = before.objects[index]?) ∧
      ∀ pair ∈ made, ∃ ofClass, linked.classNamed? pair.1.className = some ofClass ∧
        linked.objects[pair.2.index]? =
          some ⟨ofClass, pair.1.slots.map (Value.slot copies)⟩ := by
  obtain ⟨linked, done, classes, size, untouched, filled⟩ :=
    links_ok copies made.toList heap allocating.distinct allocating.blanks
  have classes := classes.trans allocating.classes
  refine ⟨linked, done, classes, size, fun index low => ?_, fun pair member => ?_⟩
  · rw [untouched index, allocating.kept index low]
    intro listed
    obtain ⟨pair, there, same⟩ := List.mem_map.mp listed
    have high := allocating.old_lt (Array.mem_toList_iff.mp there)
    rw [same] at high
    exact absurd low (Nat.not_lt_of_le high)
  · obtain ⟨ofClass, named, blank⟩ := allocating.blank pair member
    refine ⟨ofClass, ?_, filled pair (Array.mem_toList_iff.mpr member) ofClass blank⟩
    rw [← named]
    exact Live.classNamed?_congr classes _

end Allocating

/-- Each address has one copy, which is complete. -/
structure Sound (loaded : Loaded) (thaw : Thaw) : Prop where
  injective : ∀ (address other : UInt64) (copy : ObjectId), thaw.copies[address]? = some copy →
    thaw.copies[other]? = some copy → address = other
  complete : ∀ (address : UInt64) (copy : ObjectId), thaw.copies[address]? = some copy →
    ∃ object ofClass, loaded.objectAt? address = some object ∧
      thaw.heap.classNamed? object.className = some ofClass ∧
      thaw.heap.objects[copy.index]? = some ⟨ofClass, object.slots.map (Value.slot thaw.copies)⟩ ∧
      ∀ target ∈ object.targets, target ∈ thaw.copies

/-- All objects of the heap behind the first ones are copies, of objects at addresses that a
predicate holds for. -/
structure Confined (first : Nat) (holds : UInt64 → Prop) (thaw : Thaw) : Prop where
  covers : ∀ index, first ≤ index → index < thaw.heap.objects.size →
    ∃ address : UInt64, thaw.copies[address]? = some ⟨index⟩
  held : ∀ address ∈ thaw.copies, holds address

/-- Copies stay, and so do classes and the count of failures. -/
structure Grows (before after : Thaw) : Prop where
  classes : after.heap.classes = before.heap.classes
  failed : after.failed = before.failed
  copies : ∀ (address : UInt64) (copy : ObjectId), before.copies[address]? = some copy →
    after.copies[address]? = some copy

variable {thaw after : Thaw} {first : Nat}

theorem Sound.index_lt (sound : Sound loaded thaw) {address : UInt64} {copy : ObjectId}
    (known : thaw.copies[address]? = some copy) : copy.index < thaw.heap.objects.size := by
  obtain ⟨_, _, _, _, held, _⟩ := sound.complete address copy known
  exact (Array.getElem?_eq_some_iff.mp held).1

/-- No two addresses share a copy: the copies of before lie below the objects that
were allocated. -/
theorem Allocating.injective (sound : Sound loaded thaw)
    (allocating : Allocating loaded holds thaw.heap thaw.copies root [] heap copies made)
    {address other : UInt64} {copy : ObjectId} (left : copies[address]? = some copy)
    (right : copies[other]? = some copy) : address = other := by
  rcases (allocating.copied _ _).mp left with old | ⟨pair, member, rfl, rfl⟩ <;>
    rcases (allocating.copied _ _).mp right with known | ⟨another, there, rfl, same⟩
  · exact sound.injective address other copy old known
  · have high := allocating.old_lt there
    have low := sound.index_lt old
    rw [same] at high
    omega
  · have high := allocating.old_lt member
    have low := sound.index_lt known
    omega
  · have equal := List.inj_on_of_nodup_map allocating.distinct (Array.mem_toList_iff.mpr there)
      (Array.mem_toList_iff.mpr member) same
    rw [equal]

/-- Objects that were allocated and linked are copies like those before. -/
theorem Sound.adopt {grown : Thawed} {all : Array (FrozenObject × ObjectId)} {next linked : Live}
    (sound : Sound loaded thaw)
    (allocating : Allocating loaded holds thaw.heap thaw.copies root [] next grown all)
    (done : all.toList.foldlM (fun heap (object, copy) => link grown heap object copy) next =
      .ok linked) :
    Sound loaded ⟨linked, grown, thaw.failed⟩ ∧ linked.classes = thaw.heap.classes ∧
      linked.objects.size = next.objects.size := by
  obtain ⟨same, links, classes, size, untouched, filled⟩ := allocating.links
  rw [done] at links
  cases links
  have settled (pair : FrozenObject × ObjectId) (member : pair ∈ all) (target : UInt64)
      (refers : target ∈ pair.1.targets) : target ∈ grown := by
    rcases allocating.pending pair member target refers with known | waits
    · exact known
    · cases waits
  refine ⟨⟨fun _ _ _ => allocating.injective sound, ?_⟩, classes, size⟩
  intro address copy found
  rcases (allocating.copied _ _).mp found with old | ⟨pair, member, rfl, rfl⟩
  · obtain ⟨object, ofClass, read, named, held, closed⟩ := sound.complete address copy old
    have low := sound.index_lt old
    have kept (target : UInt64) (refers : target ∈ object.targets) :
        grown[target]? = thaw.copies[target]? := by
      obtain ⟨known, there⟩ := mem_copies_iff.mp (closed target refers)
      rw [there]
      exact (allocating.copied target known).mpr (.inl there)
    refine ⟨object, ofClass, read, ?_, ?_, ?_⟩
    · rw [← named]
      exact Live.classNamed?_congr classes _
    · rw [untouched copy.index low, held, object.slots_congr kept]
    · intro target refers
      rw [Std.TreeMap.mem_iff_isSome_getElem?, kept target refers]
      exact Std.TreeMap.mem_iff_isSome_getElem?.mp (closed target refers)
  · obtain ⟨ofClass, named, held⟩ := filled pair member
    exact ⟨pair.1, ofClass, allocating.read pair member, named, held, settled pair member⟩

/-- What was allocated is confined as the copies of before are. -/
theorem Allocating.covers {stack : List UInt64} (confined : Confined first holds thaw)
    (allocating : Allocating loaded holds thaw.heap thaw.copies root stack heap copies made)
    {index : Nat} (behind : first ≤ index) (inside : index < heap.objects.size) :
    ∃ address : UInt64, copies[address]? = some ⟨index⟩ ∧ holds address := by
  rw [allocating.size] at inside
  by_cases low : index < thaw.heap.objects.size
  · obtain ⟨address, known⟩ := confined.covers index behind low
    exact ⟨address, (allocating.copied _ _).mpr (.inl known),
      confined.held address (mem_copies_iff.mpr ⟨_, known⟩)⟩
  · have inside : index - thaw.heap.objects.size < made.size := by omega
    have present := Array.getElem?_eq_getElem inside
    have position := allocating.position _ _ present
    rw [show thaw.heap.objects.size + (index - thaw.heap.objects.size) = index by omega] at position
    have member := Array.mem_of_getElem? present
    exact ⟨_, (allocating.copied _ _).mpr (.inr ⟨_, member, rfl, position⟩),
      allocating.held _ member⟩

/-- Whatever had copies before, what is allocated for an address is allocated anew. -/
theorem allocating_of_allocate {address : UInt64}
    (done : allocate loaded before [address] old #[] = .ok (some (copies, made), heap)) :
    Allocating loaded (fun _ => True) before old address [] heap copies made :=
  (Allocating.start trivial).run (fun _ _ _ _ _ _ => trivial) done

/-- Copying an object either leaves no copies, or allocates all that it needs and links it. -/
theorem object_eq_ok_iff {address : UInt64} {answer : Option ObjectId} :
    thaw.object loaded address = .ok (answer, after) ↔
      (∃ next, allocate loaded thaw.heap [address] thaw.copies #[] = .ok (none, next) ∧
        answer = none ∧ after = { thaw with heap := next }) ∨
      ∃ grown all next linked,
        allocate loaded thaw.heap [address] thaw.copies #[] = .ok (some (grown, all), next) ∧
        all.toList.foldlM (fun heap (object, copy) => link grown heap object copy) next =
          .ok linked ∧
        answer = grown[address]? ∧ after = ⟨linked, grown, thaw.failed⟩ := by
  constructor
  · intro done
    unfold object at done
    simp only at done
    split at done
    · cases done
    · rename_i next allocated
      cases done
      exact .inl ⟨next, allocated, rfl, rfl⟩
    · rename_i grown all next allocated
      obtain ⟨linked, links, same⟩ := bind_eq_ok_iff.mp done
      cases same
      exact .inr ⟨grown, all, next, linked, allocated, links, rfl, rfl⟩
  · rintro (⟨next, allocated, rfl, rfl⟩ | ⟨grown, all, next, linked, allocated, links, rfl, rfl⟩)
    · simp only [object, allocated]
    · simp only [object, allocated]
      exact bind_eq_ok_iff.mpr ⟨linked, links, rfl⟩

/-- Copying an object with all that is reachable from it leaves complete copies, of addresses that
can be reached. -/
theorem object_some {address : UInt64} {copy : ObjectId} (follows : Follows loaded holds)
    (sound : Sound loaded thaw) (sought : holds address)
    (done : thaw.object loaded address = .ok (some copy, after)) :
    Sound loaded after ∧ Grows thaw after ∧ after.copies[address]? = some copy ∧
      (Confined first holds thaw → Confined first holds after) := by
  obtain ⟨_, _, absent, _⟩ | ⟨grown, all, next, linked, allocated, links, known, rfl⟩ :=
    object_eq_ok_iff.mp done
  · cases absent
  have allocating := (Allocating.start sought).run follows allocated
  obtain ⟨finished, classes, size⟩ := sound.adopt allocating links
  refine ⟨finished, ⟨classes, rfl, fun other copy old => ?_⟩, known.symm, fun confined => ⟨?_, ?_⟩⟩
  · exact (allocating.copied other copy).mpr (.inl old)
  · intro index behind inside
    rw [size] at inside
    obtain ⟨other, there, _⟩ := allocating.covers confined behind inside
    exact ⟨other, there⟩
  · intro other member
    obtain ⟨copy, there⟩ := mem_copies_iff.mp member
    rcases (allocating.copied other copy).mp there with old | ⟨pair, listed, rfl, _⟩
    · exact confined.held other (mem_copies_iff.mpr ⟨_, old⟩)
    · exact allocating.held pair listed

/-- The objects at the addresses that a predicate holds for can all be copied: they are there, and
their classes are defined. -/
structure Ready (loaded : Loaded) (holds : UInt64 → Prop) (heap : Live) : Prop where
  follows : Follows loaded holds
  read : ∀ address, holds address → ∃ object ofClass, loaded.objectAt? address = some object ∧
    heap.classNamed? object.className = some ofClass

/-- Behind the first objects of a heap there is room for a copy of each address that a
predicate holds for. -/
def Roomy (first : Nat) (holds : UInt64 → Prop) : Prop :=
  ∃ addresses : List UInt64, (∀ address, holds address → address ∈ addresses) ∧
    first + addresses.length ≤ UInt32.size

private theorem room_of_covers (roomy : Roomy first holds)
    (covers : ∀ index, first ≤ index → index < heap.objects.size →
      ∃ address : UInt64, copies[address]? = some ⟨index⟩ ∧ holds address) {address : UInt64}
    (sought : holds address) (absent : copies[address]? = none) :
    heap.objects.size < UInt32.size := by
  obtain ⟨addresses, listed, few⟩ := roomy
  have positions : (List.range' first (heap.objects.size - first)).Nodup := List.nodup_range'
  have distinct : ((List.range' first (heap.objects.size - first)).map ObjectId.mk).Nodup :=
    positions.map fun left right different => by simpa using different
  have included : (List.range' first (heap.objects.size - first)).map ObjectId.mk ⊆
      addresses.filterMap fun address => copies[address]? := by
    intro copy member
    obtain ⟨index, inside, rfl⟩ := List.mem_map.mp member
    rw [List.mem_range'_1] at inside
    obtain ⟨address, known, held⟩ := covers index inside.1 (by omega)
    exact List.mem_filterMap.mpr ⟨address, listed address held, known⟩
  have bound := (List.subperm_of_subset distinct included).length_le
  have short : (addresses.filterMap fun address => copies[address]?).length < addresses.length :=
    List.length_filterMap_lt_length_iff_exists.mpr ⟨address, listed address sought, absent⟩
  rw [List.length_map, List.length_range'] at bound
  omega

private theorem delivers_allocate {stack : List UInt64} (ready : Ready loaded holds thaw.heap)
    (confined : Confined first holds thaw)
    (allocating : Allocating loaded holds thaw.heap thaw.copies root stack heap copies made) :
    Delivers (Roomy first holds) (allocate loaded heap stack copies made) fun answer =>
      ∃ grown all, answer.1 = some (grown, all) := by
  fun_induction allocate loaded heap stack copies made with
  | case1 => exact .ok ⟨_, _, rfl⟩
  | case2 heap copies made address rest absent missing =>
    obtain ⟨object, _, found, _⟩ := ready.read address (allocating.sought _ List.mem_cons_self)
    rw [found] at missing
    cases missing
  | case3 heap copies made address rest absent object found unknown =>
    obtain ⟨other, ofClass, read, named⟩ :=
      ready.read address (allocating.sought _ List.mem_cons_self)
    rw [found] at read
    cases read
    rw [Live.classNamed?_congr allocating.classes, named] at unknown
    cases unknown
  | case4 heap copies made address rest absent object found ofClass known breach broken =>
    refine .error fun roomy => ?_
    obtain ⟨inside, _⟩ := Live.lt_of_classNamed? known
    have fresh : copies[address]? = none := Std.TreeMap.getElem?_eq_none_of_contains_eq_false absent
    have room := room_of_covers roomy (fun index => allocating.covers confined)
      (allocating.sought _ List.mem_cons_self) fresh
    obtain ⟨copy, next, done⟩ := Live.exists_alloc inside room object.blankSlots
    rw [done] at broken
    cases broken
  | case5 heap copies made address rest absent object found ofClass known copy next allocated
      _ ih =>
    refine ih (allocating.step ready.follows ?_ found known allocated)
    rw [← Std.TreeMap.contains_iff_mem, absent]
    exact Bool.false_ne_true
  | case6 heap copies made address rest present ih =>
    refine ih (allocating.skip ?_)
    rw [← Std.TreeMap.contains_iff_mem]
    exact Bool.of_not_eq_false present

/-- An object that can be copied is copied, with all that is reachable from it. -/
theorem delivers_object {address : UInt64} (ready : Ready loaded holds thaw.heap)
    (sound : Sound loaded thaw) (confined : Confined first holds thaw) (sought : holds address) :
    Delivers (Roomy first holds) (thaw.object loaded address) fun answer =>
      ∃ copy, answer.1 = some copy ∧ Sound loaded answer.2 ∧ Grows thaw answer.2 ∧
        answer.2.copies[address]? = some copy ∧ Confined first holds answer.2 := by
  have allocates := delivers_allocate ready confined (.start sought)
  cases ran : allocate loaded thaw.heap [address] thaw.copies #[] with
  | error breach =>
    have broken : thaw.object loaded address = .error breach := by simp only [object, ran]
    rw [broken]
    refine .error fun roomy => ?_
    obtain ⟨_, done⟩ := allocates.returns roomy
    cases ran.symm.trans done
  | ok answer =>
    obtain ⟨grown, all, found⟩ := allocates.good answer ran
    obtain ⟨answer, next⟩ := answer
    subst found
    have allocating := (Allocating.start sought).run ready.follows ran
    obtain ⟨linked, links, _⟩ := allocating.links
    have known : address ∈ grown := by
      rcases allocating.asked with known | waits
      · exact known
      · cases waits
    obtain ⟨copy, here⟩ := mem_copies_iff.mp known
    have done : thaw.object loaded address = .ok (some copy, ⟨linked, grown, thaw.failed⟩) :=
      object_eq_ok_iff.mpr (.inr ⟨grown, all, next, linked, ran, links, here.symm, rfl⟩)
    obtain ⟨finished, grows, copied, confines⟩ := object_some ready.follows sound sought done
    exact .of_eq_ok done ⟨copy, rfl, finished, grows, copied, confines confined⟩

end Thaw
end FrozenHeap
