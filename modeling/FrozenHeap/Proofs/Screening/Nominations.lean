import FrozenHeap.Proofs.Live
import FrozenHeap.Proofs.Parallel
import FrozenHeap.Proofs.Screening.Verdicts

namespace FrozenHeap

namespace Live

/-- These names are those of a class and of the first field that it declares under this name. -/
def Declares (live : Live) (className fieldName : String) (ofClass : ClassId)
    (field : StaticField) : Prop :=
  live.classNamed? className = some ofClass ∧ ∃ loaded, live.classes[ofClass.index]? = some loaded ∧
    loaded.shape.static? fieldName = some field

namespace Declares

variable {live : Live} {className fieldName otherClass otherField : String} {ofClass : ClassId}
  {field other : StaticField}

theorem exists_static (declares : live.Declares className fieldName ofClass field) :
    ∃ slot, live.static? ofClass field.offset = some slot := by
  obtain ⟨_, loaded, present, declared⟩ := declares
  exact Live.exists_static present (Array.mem_of_find?_eq_some declared)

theorem unique (left : live.Declares className fieldName ofClass field) {again : ClassId}
    (right : live.Declares className fieldName again other) : ofClass = again ∧ field = other := by
  obtain ⟨named, loaded, present, declared⟩ := left
  obtain ⟨same, _, found, second⟩ := right
  rw [named] at same
  cases same
  rw [present] at found
  cases found
  rw [declared] at second
  cases second
  exact ⟨rfl, rfl⟩

/-- A class and an offset stand for one field of one name at most. -/
theorem names_eq (left : live.Declares className fieldName ofClass field)
    (right : live.Declares otherClass otherField ofClass other)
    (same : field.offset = other.offset) : className = otherClass ∧ fieldName = otherField := by
  refine ⟨name_inj left.1 right.1, ?_⟩
  obtain ⟨_, loaded, present, first⟩ := left
  obtain ⟨_, again, found, second⟩ := right
  rw [present] at found
  cases found
  have equal := List.inj_on_of_nodup_map loaded.shape.nodup_offsets
    (Array.mem_toList_iff.mpr (Array.mem_of_find?_eq_some first))
    (Array.mem_toList_iff.mpr (Array.mem_of_find?_eq_some second)) same
  have here := Array.find?_some first
  have there := Array.find?_some second
  rw [equal] at here
  exact (eq_of_beq here).symm.trans (eq_of_beq there)

end Declares
end Live

namespace Nomination

def names (nomination : Nomination) : String × String :=
  (nomination.className, nomination.fieldName)

/-- Nothing has been found out about a nomination yet. -/
def Fresh (nomination : Nomination) : Prop :=
  nomination.resolved = none ∧ nomination.canPreserve = true

/-- If a nomination was resolved, then to the field that its names stand for. -/
def Consistent (nomination : Nomination) (live : Live) : Prop :=
  nomination.resolved = none ∨ nomination.resolved = nomination.field? live

variable {nomination : Nomination} {live : Live} {ofClass : ClassId} {offset : UInt32}

theorem Fresh.consistent (fresh : nomination.Fresh) : nomination.Consistent live := .inl fresh.1

/-- A nomination stands for the declared reference field of its names. -/
theorem field?_eq_some_iff : nomination.field? live = some (ofClass, offset) ↔
    ∃ field, live.Declares nomination.className nomination.fieldName ofClass field ∧
      field.isReference = true ∧ field.offset = offset := by
  simp only [field?, Live.Declares, Option.bind_eq_bind, Option.bind_eq_some_iff]
  constructor
  · rintro ⟨owner, named, loaded, present, field, declared, chosen⟩
    split at chosen
    · rename_i reference
      cases chosen
      exact ⟨field, ⟨named, loaded, present, declared⟩, reference, rfl⟩
    · cases chosen
  · rintro ⟨field, ⟨named, loaded, present, declared⟩, reference, rfl⟩
    exact ⟨ofClass, named, loaded, present, field, declared, if_pos reference⟩

/-- The field that a nomination stands for has a value. -/
theorem exists_static {field : ClassId × UInt32} (found : nomination.field? live = some field) :
    ∃ slot, live.static? field.1 field.2 = some slot := by
  obtain ⟨_, declares, _, same⟩ := field?_eq_some_iff.mp found
  exact same ▸ declares.exists_static

private theorem Consistent.resolve_eq (consistent : nomination.Consistent live) :
    nomination.resolve live = { nomination with
      resolved := nomination.field? live
      canPreserve := nomination.canPreserve && (nomination.field? live).isSome } := by
  unfold resolve
  split
  · rename_i field resolved
    have same := (consistent.resolve_left (by simp [resolved])).symm
    rw [same, resolved, Option.isSome_some, Bool.and_true, ← resolved]
  · rename_i unresolved
    split
    · rename_i field found
      simp [found]
    · rename_i found
      simp [found, unresolved]

end Nomination

namespace Screening

/-- Everything behind a static field may be archived. -/
def Clears (screening : Screening) (live : Live) (field : ClassId × UInt32) : Prop :=
  ∀ root, live.static? field.1 field.2 = some (.ref root) →
    ∀ object, live.Reaches root object → screening.Admissible live object

/-- A value may be archived: it leads nowhere, or only to what may be archived. -/
def Bears (screening : Screening) (live : Live) : Slot → Prop
  | .bits _ => True
  | .null => True
  | .ref root => ∀ object, live.Reaches root object → screening.Admissible live object

/-- Only objects that may be archived were found clean. -/
structure Sound (screening : Screening) (live : Live) : Prop where
  coherent : screening.Coherent live
  clean : ∀ object, screening.clean.contains object = true → screening.Admissible live object

/-- A screening has gone on without settling anything about classes. -/
structure Continued (live : Live) (before after : Screening) : Prop where
  sound : after.Sound live
  verdicts : after.verdicts = before.verdicts
  excluded : after.excluded = before.excluded

/-- A nomination has been resolved, and given up unless it stands for a field whose value may
be archived. -/
structure Weighed (screening : Screening) (live : Live) (nomination weighed : Nomination) :
    Prop where
  className : weighed.className = nomination.className
  fieldName : weighed.fieldName = nomination.fieldName
  region : weighed.region = nomination.region
  resolved : weighed.resolved = nomination.field? live
  canPreserve : weighed.canPreserve = true ↔ nomination.canPreserve = true ∧
    ∃ field slot, nomination.field? live = some field ∧
      live.static? field.1 field.2 = some slot ∧ screening.Bears live slot

/-- A nomination has been resolved, and checked if it stands for a field. -/
structure Judged (screening : Screening) (live : Live) (nomination judged : Nomination) : Prop where
  className : judged.className = nomination.className
  fieldName : judged.fieldName = nomination.fieldName
  region : judged.region = nomination.region
  resolved : judged.resolved = nomination.field? live
  preservable : judged.isPreservable = true ↔
    ∃ field, nomination.field? live = some field ∧ screening.Clears live field

variable {screening before after last : Screening} {live : Live} {nomination : Nomination}

/-- What a nomination was judged for, it stands for itself. -/
theorem Judged.self {judged : Nomination} (judges : screening.Judged live nomination judged) :
    screening.Judged live judged judged := by
  have same : judged.field? live = nomination.field? live := by
    rw [Nomination.field?, judges.className, judges.fieldName, Nomination.field?]
  exact ⟨rfl, rfl, rfl, judges.resolved.trans same.symm, by rw [same]; exact judges.preservable⟩

theorem Judged.self_of_mem {nominations judged : List Nomination}
    (judges : List.Forall₂ (screening.Judged live) nominations judged) :
    ∀ nomination ∈ judged, screening.Judged live nomination nomination := by
  intro nomination listed
  obtain ⟨_, _, judged⟩ := exists_left_of_forall₂ judges nomination listed
  exact judged.self

theorem names_of_judged {nominations judged : List Nomination}
    (judges : List.Forall₂ (screening.Judged live) nominations judged) :
    judged.map Nomination.names = nominations.map Nomination.names :=
  (map_eq_of_forall₂ judges fun _ _ judged =>
    Prod.ext judged.className.symm judged.fieldName.symm).symm

namespace Continued

theorem refl (sound : screening.Sound live) : Continued live screening screening :=
  ⟨sound, rfl, rfl⟩

theorem trans (front : Continued live before after) (back : Continued live after last) :
    Continued live before last :=
  ⟨back.sound, back.verdicts.trans front.verdicts, back.excluded.trans front.excluded⟩

theorem admissible (continued : Continued live before after) {object : ObjectId} :
    after.Admissible live object ↔ before.Admissible live object :=
  admissible_congr continued.verdicts continued.excluded

theorem clears (continued : Continued live before after) {field : ClassId × UInt32} :
    after.Clears live field ↔ before.Clears live field := by
  simp only [Clears, continued.admissible]

theorem judged (continued : Continued live before after) {judged : Nomination} :
    after.Judged live nomination judged ↔ before.Judged live nomination judged := by
  constructor
  · intro judges
    exact { judges with preservable := judges.preservable.trans (by simp only [continued.clears]) }
  · intro judges
    exact { judges with preservable := judges.preservable.trans (by simp only [continued.clears]) }

end Continued

private theorem clears_iff {field : ClassId × UInt32} {slot : Slot}
    (value : live.static? field.1 field.2 = some slot) :
    screening.Clears live field ↔ screening.Bears live slot := by
  simp only [Clears, value, Option.some.injEq]
  cases slot with
  | bits word => simp [Bears]
  | null => simp [Bears]
  | ref root => simp [Bears]

theorem Weighed.consistent {weighed : Nomination}
    (weighs : screening.Weighed live nomination weighed) :
    weighed.Consistent live := by
  right
  rw [weighs.resolved, Nomination.field?, Nomination.field?, weighs.className, weighs.fieldName]

theorem Weighed.judged {weighed : Nomination} (weighs : screening.Weighed live nomination weighed)
    (fresh : nomination.Fresh) : screening.Judged live nomination weighed where
  className := weighs.className
  fieldName := weighs.fieldName
  region := weighs.region
  resolved := weighs.resolved
  preservable := by
    rw [Nomination.isPreservable, Bool.and_eq_true, weighs.canPreserve, weighs.resolved]
    constructor
    · rintro ⟨⟨_, field, slot, found, value, bears⟩, _⟩
      exact ⟨field, found, (clears_iff value).mpr bears⟩
    · rintro ⟨field, found, clears⟩
      obtain ⟨slot, value⟩ := Nomination.exists_static found
      refine ⟨⟨fresh.2, field, slot, found, value, (clears_iff value).mp clears⟩, ?_⟩
      rw [found, Option.isSome_some]

theorem Continued.weighed (continued : Continued live before after) {weighed : Nomination}
    (weighs : after.Weighed live nomination weighed) : before.Weighed live nomination weighed where
  className := weighs.className
  fieldName := weighs.fieldName
  region := weighs.region
  resolved := weighs.resolved
  canPreserve := by
    rw [weighs.canPreserve]
    refine and_congr_right fun _ => exists_congr fun field => exists_congr fun slot => ?_
    refine and_congr_right fun _ => and_congr_right fun value => ?_
    rw [← clears_iff value, continued.clears, clears_iff value]

/-- A check of an object finds out whether everything that it reaches may be archived. -/
theorem Sound.checkObject (sound : screening.Sound live) (closed : live.Closed) {root : ObjectId}
    (inside : root.index < live.objects.size) :
    ∃ answer after, screening.checkObject live root = .ok (answer, after) ∧
      Continued live screening after ∧
      (answer = true ↔ ∀ object, live.Reaches root object → screening.Admissible live object) := by
  obtain ⟨answer, after, done, checked⟩ := checkObject_checked closed sound.coherent inside
  have passes : screening.Passes live root ↔
      ∀ object, live.Reaches root object → screening.Admissible live object :=
    forall_congr' fun object => imp_congr_right fun _ =>
      ⟨fun passes => passes.elim (sound.clean object) id, .inr⟩
  refine ⟨answer, after, done, ⟨⟨checked.coherent, fun object clean => ?_⟩, checked.verdicts,
    checked.excluded⟩, checked.answer.trans passes⟩
  rw [admissible_congr checked.verdicts checked.excluded]
  rcases (checked.clean object).mp clean with old | ⟨passed, path⟩
  · exact sound.clean object old
  · exact passes.mp passed object path

/-- A check of a static field finds out whether its value may be archived. -/
theorem Sound.checkStatic (sound : screening.Sound live) (closed : live.Closed) {ofClass : ClassId}
    {offset : UInt32} {slot : Slot} (value : live.static? ofClass offset = some slot) :
    ∃ answer after, screening.checkStatic live ofClass offset = .ok (answer, after) ∧
      Continued live screening after ∧ (answer = true ↔ screening.Bears live slot) := by
  rw [Screening.checkStatic, value]
  cases slot with
  | bits word => exact ⟨true, screening, rfl, .refl sound, by simp [Bears]⟩
  | null => exact ⟨true, screening, rfl, .refl sound, by simp [Bears]⟩
  | ref root => exact sound.checkObject closed (closed.static value)

/-- A nomination that nothing speaks against yet is weighed by the field that it stands for. -/
theorem Sound.checkNomination (sound : screening.Sound live) (closed : live.Closed)
    (consistent : nomination.Consistent live) :
    ∃ weighed after, screening.checkNomination live (nomination.resolve live) =
        .ok (weighed, after) ∧
      Continued live screening after ∧ screening.Weighed live nomination weighed := by
  rw [consistent.resolve_eq]
  cases found : nomination.field? live with
  | none =>
    refine ⟨{ nomination with resolved := none, canPreserve := false }, screening, ?_, .refl sound,
      rfl, rfl, rfl, found.symm, ?_⟩
    · simp only [Screening.checkNomination, Option.isSome_none, Bool.and_false]
    · simp [found]
  | some field =>
    obtain ⟨slot, value⟩ := Nomination.exists_static found
    have stands : (∃ field slot, nomination.field? live = some field ∧
        live.static? field.1 field.2 = some slot ∧ screening.Bears live slot) ↔
          screening.Bears live slot := by
      constructor
      · rintro ⟨_, _, same, there, bears⟩
        cases found.symm.trans same
        cases value.symm.trans there
        exact bears
      · exact fun bears => ⟨field, slot, found, value, bears⟩
    cases hopeful : nomination.canPreserve with
    | false =>
      refine ⟨{ nomination with resolved := some field, canPreserve := false }, screening, ?_,
        .refl sound, rfl, rfl, rfl, found.symm, by simp [hopeful]⟩
      simp only [Screening.checkNomination, Bool.false_and]
    | true =>
      obtain ⟨answer, after, done, continued, verdict⟩ := sound.checkStatic closed value
      simp only [Screening.checkNomination, Option.isSome_some, Bool.and_true, done]
      cases answer with
      | true =>
        refine ⟨_, after, rfl, continued, rfl, rfl, rfl, found.symm, ?_⟩
        rw [stands, hopeful, and_iff_right rfl]
        exact verdict
      | false =>
        refine ⟨_, after, rfl, continued, rfl, rfl, rfl, found.symm, ?_⟩
        rw [stands, hopeful, and_iff_right rfl]
        exact verdict

/-- Nominations are weighed one by one, whatever their order. -/
theorem Sound.weighFields (sound : screening.Sound live) (closed : live.Closed)
    {nominations : List Nomination}
    (consistent : ∀ nomination ∈ nominations, nomination.Consistent live) :
    ∃ weighed after, screening.checkFields live nominations = .ok (weighed, after) ∧
      Continued live screening after ∧
      List.Forall₂ (screening.Weighed live) nominations weighed := by
  unfold Screening.checkFields
  -- Each check may find objects clean, so that the induction is for any screening that is sound.
  induction nominations generalizing screening with
  | nil => exact ⟨[], screening, rfl, .refl sound, .nil⟩
  | cons head rest ih =>
    obtain ⟨first, middle, done, continued, weighs⟩ :=
      sound.checkNomination closed (consistent head List.mem_cons_self)
    obtain ⟨others, after, finished, later, weighed⟩ :=
      ih continued.sound fun other member => consistent other (List.mem_cons_of_mem _ member)
    refine ⟨first :: others, after, ?_, continued.trans later,
      .cons weighs (weighed.imp fun _ _ => continued.weighed)⟩
    simp only [List.map_cons, checkEach, done, finished, bind, Except.bind, pure, Except.pure]

theorem Sound.checkFields (sound : screening.Sound live) (closed : live.Closed)
    {nominations : List Nomination} (fresh : ∀ nomination ∈ nominations, nomination.Fresh) :
    ∃ judged after, screening.checkFields live nominations = .ok (judged, after) ∧
      Continued live screening after ∧
      List.Forall₂ (screening.Judged live) nominations judged := by
  obtain ⟨weighed, after, done, continued, weighs⟩ :=
    sound.weighFields closed fun nomination member => (fresh nomination member).consistent
  refine ⟨weighed, after, done, continued, ?_⟩
  rw [List.forall₂_iff_zip] at weighs ⊢
  exact ⟨weighs.1, fun pair => (weighs.2 pair).judged (fresh _ (List.of_mem_zip pair).1)⟩

/-- When classes have been checked, no object counts as clean for what was settled before. -/
theorem exists_checkClasses (closed : live.Closed) (coherent : screening.Coherent live)
    {classes : List ClassId} (loaded : ∀ ofClass ∈ classes, ofClass.index < live.classes.size) :
    ∃ after, screening.checkClasses live classes = .ok after ∧ after.Sound live := by
  have keeps : ∀ ofClass ∈ classes, ∀ (state next : Screening),
      state.checkClass live ofClass = .ok next → state.Coherent live → next.Coherent live := by
    intro ofClass member state next done coherent
    obtain ⟨after, again, _, _, kept⟩ := checkClass_outlook closed coherent (loaded _ member)
    rw [done] at again
    cases again
    exact kept
  have step (front : List ClassId) (ofClass : ClassId) (back : List ClassId) (state : Screening)
      (split : classes = front ++ ofClass :: back)
      (reached : front.foldlM (·.checkClass live ·) screening = .ok state) :
      ∃ next, state.checkClass live ofClass = .ok next := by
    have kept := foldlM_preserves (Coherent · live)
      (fun other member => keeps other (split ▸ List.mem_append_left _ member)) coherent reached
    obtain ⟨after, done, _⟩ := checkClass_outlook closed kept
      (loaded ofClass (split ▸ List.mem_append_right front List.mem_cons_self))
    exact ⟨after, done⟩
  obtain ⟨last, done⟩ := exists_foldlM step
  have kept := foldlM_preserves (Coherent · live) keeps coherent done
  refine ⟨{ last with clean := ∅ }, by rw [checkClasses, done]; rfl, ⟨fun object target clean => ?_,
    fun object tainted => ⟨(kept.tainted object tainted).1, ?_⟩⟩, fun object clean => ?_⟩
  · simp at clean
  · simp
  · simp at clean

end Screening
end FrozenHeap
