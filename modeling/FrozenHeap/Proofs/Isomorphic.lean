import FrozenHeap.Archive.Written
import FrozenHeap.Proofs.Matching.Dumps
import FrozenHeap.Proofs.Session

/-! Isomorphic heaps. What a session leaves is a matter of the graphs behind the classes that it
is asked for: neither what their objects and classes are called, nor anything outside of them,
shows in it. -/

namespace FrozenHeap

/-- New numbers for the objects and the classes of a heap. -/
structure Renaming where
  object : ObjectId → ObjectId
  ofClass : ClassId → ClassId

namespace Renaming

variable (numbers : Renaming)

def slot : Slot → Slot
  | .ref target => .ref (numbers.object target)
  | .null => .null
  | .bits word => .bits word

def portrait (seen : Portrait) : Portrait :=
  ⟨numbers.ofClass seen.ofClass, seen.shape, seen.slots.map numbers.slot⟩

end Renaming

namespace Live

/-- The static fields of the classes of some names lead to an object. -/
def Exposes (live : Live) (names : List String) (object : ObjectId) : Prop :=
  ∃ name ∈ names, ∃ ofClass loaded root, live.classNamed? name = some ofClass ∧
    live.classes[ofClass.index]? = some loaded ∧ Slot.ref root ∈ loaded.statics ∧
    live.Reaches root object

/-- Two heaps have the same classes, and what the static fields of the classes of some names lead to
is the same in both, under other numbers. -/
structure Isomorphic (left right : Live) (names : List String) (numbers : Renaming) : Prop where
  shapes : ∀ shape, shape ∈ left.shapes ↔ shape ∈ right.shapes
  statics : ∀ name ∈ names, ∀ former latter one two, left.classNamed? name = some former →
    right.classNamed? name = some latter → left.classes[former.index]? = some one →
    right.classes[latter.index]? = some two → two.statics = one.statics.map numbers.slot
  portraits : ∀ object seen, left.Exposes names object → left.portrait? object = some seen →
    right.portrait? (numbers.object object) = some (numbers.portrait seen)
  injective : ∀ one two, left.Exposes names one → left.Exposes names two →
    numbers.object one = numbers.object two → one = two

variable {left right : Live} {names : List String} {numbers : Renaming}

theorem alike_map {twin : ObjectId → ObjectId → Prop} (slots : List Slot)
    (leads : ∀ target, Slot.ref target ∈ slots → twin target (numbers.object target)) :
    List.Forall₂ (Slot.Alike twin) slots (slots.map numbers.slot) := by
  rw [List.forall₂_map_right_iff, List.forall₂_same]
  intro slot member
  cases slot with
  | bits word => exact .bits
  | null => exact .null
  | ref target => exact .ref (leads target member)

theorem Exposes.exists_portrait (closed : left.Closed) {object : ObjectId}
    (leads : left.Exposes names object) : ∃ seen, left.portrait? object = some seen := by
  obtain ⟨name, _, ofClass, loaded, root, _, present, refers, path⟩ := leads
  have inside := closed.statics loaded (Array.mem_of_getElem? present) root refers
  exact Option.isSome_iff_exists.mp (isSome_portrait?.mpr (closed.reached inside path))

namespace Isomorphic

variable (isomorphic : left.Isomorphic right names numbers)
include isomorphic

private theorem classNamed (name : String) :
    Option.Rel (left.Kin right) (left.classNamed? name) (right.classNamed? name) := by
  have found {one two : Live} (same : ∀ shape, shape ∈ one.shapes → shape ∈ two.shapes)
      {former : ClassId} (here : one.classNamed? name = some former) :
      ∃ latter loaded other, two.classNamed? name = some latter ∧
        one.classes[former.index]? = some loaded ∧ two.classes[latter.index]? = some other ∧
        other.shape = loaded.shape := by
    obtain ⟨inside, title⟩ := lt_of_classNamed? here
    have member : one.classes[former.index].shape ∈ one.shapes :=
      Array.mem_map_of_mem (Array.getElem_mem inside)
    obtain ⟨other, present, shape⟩ := Array.mem_map.mp (same _ member)
    obtain ⟨index, there⟩ := Array.getElem?_of_mem present
    refine ⟨⟨index⟩, _, other, ?_, Array.getElem?_eq_getElem inside, there, shape⟩
    rw [← title, ← shape]
    exact classNamed?_of_getElem? there
  cases here : left.classNamed? name with
  | some former =>
    obtain ⟨latter, one, two, there, first, second, same⟩ :=
      found (fun shape => (isomorphic.shapes shape).mp) here
    rw [there]
    exact .some ⟨one, two, first, second, same.symm⟩
  | none =>
    cases there : right.classNamed? name with
    | none => exact .none
    | some latter =>
      obtain ⟨_, _, _, again, _⟩ := found (fun shape => (isomorphic.shapes shape).mpr) there
      rw [here] at again
      cases again

/-- The objects that the names lead to are paired with what they are called in the other heap. -/
def matching (closed : left.Closed) : Matching left right where
  twin one two := left.Exposes names one ∧ two = numbers.object one
  names := names
  unique := by
    refine ⟨fun one two other first second => ?_, fun one two other first second => ?_⟩
    · exact isomorphic.injective one two first.1 second.1 (first.2.symm.trans second.2)
    · exact first.2.trans second.2.symm
  portraits one two twins := by
    obtain ⟨leads, rfl⟩ := twins
    obtain ⟨seen, found⟩ := leads.exists_portrait closed
    refine ⟨seen, _, found, isomorphic.portraits one seen leads found, rfl, ?_⟩
    simp only [Renaming.portrait, Array.toList_map]
    refine alike_map _ fun target member => ⟨?_, rfl⟩
    obtain ⟨name, known, ofClass, loaded, root, named, present, refers, path⟩ := leads
    exact ⟨name, known, ofClass, loaded, root, named, present, refers,
      path.tail ⟨seen, found, Array.mem_toList_iff.mp member⟩⟩
  named name known := by
    have classes := isomorphic.classNamed name
    have statics := isomorphic.statics name known
    generalize here : left.classNamed? name = one at classes statics ⊢
    generalize right.classNamed? name = two at classes statics ⊢
    cases classes with
    | none => exact .none
    | some kin =>
      obtain ⟨one, two, first, second, same⟩ := kin
      refine .some ⟨one, two, first, second, same, ?_⟩
      rw [statics _ _ one two rfl rfl first second, Array.toList_map]
      exact alike_map _ fun target member => ⟨⟨name, known, _, one, target, here, first,
        Array.mem_toList_iff.mp member, .refl⟩, rfl⟩

end Isomorphic
end Live

/-- The name of the class that a request is for. -/
def Registration.className : Registration → String
  | .field className _ _ => className
  | .whole name => name

namespace Session

/-- Start a session on a heap, take the requests, archive what they ask for, and write the archive.
The counts are kept beside it. -/
def output (settings : Settings) (live : Live) (requests : List Registration) :
    Except Malformed (Run (Outcome (Option (Except Malformed (List UInt8) × Totals)))) :=
  match start settings live with
  | .error cause => .error cause
  | .ok session => .ok do
    let (_, outcome) ← session.run requests
    return outcome.map (·.map fun dumped => (dumped.archive.toBytes, dumped.totals))

variable {left right : Live} {pairs : Matching left right} {session other : Session}

/-- Requests for classes of the names leave sessions on matched heaps that have done the same. -/
theorem register_alike (same : Option.Rel pairs.Dumps session.dump other.dump)
    {request : Registration} (known : request.className ∈ pairs.names) :
    Parallel (fun former latter => Option.Rel pairs.Dumps former.dump latter.dump)
      (session.register request) (other.register request) := by
  obtain ⟨former⟩ := session
  obtain ⟨latter⟩ := other
  cases same with
  | none => cases request <;> exact .ok .none
  | some dumps =>
    cases request with
    | field className fieldName region =>
      exact .ok (.some (dumps.nominate known fieldName region).2)
    | whole name => exact .ok (.some (dumps.nominateWhole known).2)

private theorem run_alike (same : Option.Rel pairs.Dumps session.dump other.dump)
    {requests : List Registration} (known : ∀ request ∈ requests, request.className ∈ pairs.names) :
    Parallel (fun former latter => former.2 = latter.2) (session.run requests)
      (other.run requests) := by
  refine Parallel.bind (R := fun former latter => Option.Rel pairs.Dumps former.dump latter.dump)
    ?_ fun former latter ready => ?_
  · refine Parallel.foldlM (S := fun one two => one = two ∧ one.className ∈ pairs.names) ?_
      (List.forall₂_same.mpr fun request member => ⟨rfl, known request member⟩) same
    rintro former latter request _ now ⟨rfl, asked⟩
    exact register_alike now asked
  · refine Parallel.bind (R := fun one two => Option.Rel pairs.Dumps one.2.dump two.2.dump) ?_
      fun one two done => ?_
    · obtain ⟨former⟩ := former
      obtain ⟨latter⟩ := latter
      cases ready with
      | none => exact .ok .none
      | some dumps =>
        refine Parallel.bind (R := fun one two => pairs.Dumps one.2 two.2) ?_
          fun _ _ later => .ok (.some later)
        exact dumps.archiveAll.bind fun _ _ later => .ok later
    · refine Parallel.bind (R := Eq) ?_ fun _ _ outcomes => .ok outcomes
      obtain ⟨_, ⟨former⟩⟩ := one
      obtain ⟨_, ⟨latter⟩⟩ := two
      cases done with
      | none => exact .ok rfl
      | some dumps =>
        simp only [finish, dumps.finish]
        exact .refl

/-- Sessions on isomorphic heaps leave the same bytes and the same counts, or fail for the
same reason. -/
theorem output_eq {numbers : Renaming} {requests : List Registration}
    (closed : left.Closed) (isomorphic : left.Isomorphic right (requests.map (·.className)) numbers)
    (settings : Settings) : output settings left requests = output settings right requests := by
  have ran {session other : Session}
      (same : Option.Rel (isomorphic.matching closed).Dumps session.dump other.dump) :
      Parallel Eq (do
        let (_, outcome) ← session.run requests
        return outcome.map (·.map fun dumped => (dumped.archive.toBytes, dumped.totals)))
      (do
        let (_, outcome) ← other.run requests
        return outcome.map (·.map fun dumped => (dumped.archive.toBytes, dumped.totals))) :=
    (run_alike same fun request member => List.mem_map_of_mem member).bind
      fun _ _ outcomes => .ok (by rw [outcomes])
  unfold output start
  by_cases enabled : settings.enabled = true
  · simp only [if_pos enabled]
    rcases Matching.Dumps.start (isomorphic.matching closed) settings with
      ⟨cause, first, second⟩ | ⟨dump, other, first, second, same⟩
    · rw [first, second]
    · rw [first, second]
      exact congrArg Except.ok (ran (.some same)).eq
  · simp only [if_neg enabled]

end Session

def ClassShape.headed (name : String) : ClassShape where
  name := name
  traits := .plain
  statics := #[⟨"head", 16, true⟩]
  placed := fun index inside => by
    obtain rfl : index = 0 := by simpa using inside
    rfl

def LoadedClass.headed (name : String) (slot : Slot) : LoadedClass := ⟨.headed name, #[slot], rfl⟩

namespace Live

/-- A list of two nodes, and a class that holds nothing. -/
def gathered : Live where
  classes := #[.headed "Node" (.ref ⟨0⟩), .headed "Spare" .null]
  objects := #[⟨⟨0⟩, #[.ref ⟨1⟩, .bits 7]⟩, ⟨⟨0⟩, #[.null, .bits 8]⟩]
  distinct := by decide
  classified := by decide
  numbered := by decide

/-- The same list under other numbers, beside an object that is not part of it. -/
def strewn : Live where
  classes := #[.headed "Spare" (.ref ⟨1⟩), .headed "Node" (.ref ⟨2⟩)]
  objects := #[⟨⟨1⟩, #[.null, .bits 8]⟩, ⟨⟨0⟩, #[.ref ⟨2⟩]⟩, ⟨⟨1⟩, #[.ref ⟨0⟩, .bits 7]⟩]
  distinct := by decide
  classified := by decide
  numbered := by decide

private theorem closed_gathered : gathered.Closed := closed_of_targets (by decide) (by decide)

/-- The list has its two nodes, which change places, with one object between them. -/
theorem isomorphic_strewn :
    gathered.Isomorphic strewn ["Node"] ⟨fun object => ⟨2 - 2 * object.index⟩, fun _ => ⟨1⟩⟩ where
  shapes shape := by simp [shapes, gathered, strewn, LoadedClass.headed, or_comm]
  statics name known former latter one two here there first second := by
    obtain rfl := List.mem_singleton.mp known
    have one : gathered.classes[0]? = some (.headed "Node" (.ref ⟨0⟩)) := rfl
    have two : strewn.classes[1]? = some (.headed "Node" (.ref ⟨2⟩)) := rfl
    cases here.symm.trans (classNamed?_of_getElem? one)
    cases there.symm.trans (classNamed?_of_getElem? two)
    cases first
    cases second
    simp [gathered, strewn, LoadedClass.headed, Renaming.slot]
  portraits object seen _ found := by
    obtain ⟨index⟩ := object
    have inside : index < 2 := isSome_portrait?.mp (Option.isSome_of_eq_some found)
    obtain rfl | rfl : index = 0 ∨ index = 1 := by omega
    · cases found
      simp [portrait?, shapeAt, gathered, strewn, LoadedClass.headed, Renaming.portrait,
        Renaming.slot]
    · cases found
      simp [portrait?, shapeAt, gathered, strewn, LoadedClass.headed, Renaming.portrait,
        Renaming.slot]
  injective one two first second same := by
    obtain ⟨_, found⟩ := first.exists_portrait closed_gathered
    obtain ⟨_, there⟩ := second.exists_portrait closed_gathered
    have inside : one.index < 2 := isSome_portrait?.mp (Option.isSome_of_eq_some found)
    have within : two.index < 2 := isSome_portrait?.mp (Option.isSome_of_eq_some there)
    obtain ⟨one⟩ := one
    obtain ⟨two⟩ := two
    simp only [ObjectId.mk.injEq] at same ⊢
    simp only at inside within
    omega

end Live

namespace Session

theorem output_eq_strewn : ∃ bytes totals,
    output {} .gathered [.field "Node" "head" .closed] =
      .ok (.ok (.ok (some (.ok bytes, totals)))) ∧ bytes.length = 210 ∧ totals.archived = 2 ∧
      output {} .strewn [.field "Node" "head" .closed] =
        .ok (.ok (.ok (some (.ok bytes, totals)))) := by
  have same : output {} .gathered [.field "Node" "head" .closed] =
      output {} .strewn [.field "Node" "head" .closed] :=
    output_eq Live.closed_gathered Live.isomorphic_strewn {}
  have ran : (output {} .gathered [.field "Node" "head" .closed]).toOption.any (fun ran =>
      ran.toOption.any fun outcome => outcome.toOption.any fun left => left.any fun written =>
        written.1.toOption.any (·.length == 210) && written.2.archived == 2) = true := by
    decide +kernel
  obtain ⟨_, done, delivers⟩ := any_toOption_iff.mp ran
  obtain ⟨_, rfl, succeeds⟩ := any_toOption_iff.mp delivers
  obtain ⟨_, rfl, leaves⟩ := any_toOption_iff.mp succeeds
  obtain ⟨⟨written, totals⟩, rfl, checked⟩ := (Option.any_eq_true _ _).mp leaves
  obtain ⟨wrote, copied⟩ := (Bool.and_eq_true _ _).mp checked
  obtain ⟨bytes, rfl, long⟩ := any_toOption_iff.mp wrote
  exact ⟨bytes, totals, done, eq_of_beq long, eq_of_beq copied, same ▸ done⟩

end Session
end FrozenHeap
