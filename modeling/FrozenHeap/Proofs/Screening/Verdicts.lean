import FrozenHeap.Proofs.Screening.Search
import Mathlib.Logic.Basic

/-! Verdicts on classes. Classes are examined one after the other; a class is rejected for an object
behind one of its static fields, unless that object was accepted before for an earlier field. -/

namespace FrozenHeap

namespace Live

/-- An object lies in the graph behind a static field of a class. -/
def Behind (live : Live) (ofClass : ClassId) (field : StaticField) (object : ObjectId) : Prop :=
  ∃ root, live.static? ofClass field.offset = some (.ref root) ∧ live.Reaches root object

/-- The static reference fields that a class declares. -/
def references (live : Live) (ofClass : ClassId) : List StaticField :=
  match live.classes[ofClass.index]? with
  | some loaded => loaded.shape.statics.toList.filter (·.isReference)
  | none => []

end Live

/-- What is settled when some classes have been examined. -/
@[ext]
structure Outlook where
  examined : ClassId → Prop
  rejected : ClassId → Prop
  /-- Objects behind static fields that passed. -/
  accepted : ObjectId → Prop

namespace Outlook

def start : Outlook := ⟨fun _ => False, fun _ => False, fun _ => False⟩

variable (live : Live) (excluded : List String)

/-- A class is neither flagged nor excluded nor rejected. -/
def Fit (outlook : Outlook) (ofClass : ClassId) : Prop :=
  ∃ loaded, live.classes[ofClass.index]? = some loaded ∧ loaded.shape.traits.unfit = false ∧
    loaded.shape.name ∉ excluded ∧ ¬ outlook.rejected ofClass

/-- An object is an instance of a class that is fit. -/
def FitObject (outlook : Outlook) (object : ObjectId) : Prop :=
  ∃ seen, live.portrait? object = some seen ∧ outlook.Fit live excluded seen.ofClass

/-- Every object behind a static field is fit, or was accepted before. -/
def Passes (outlook : Outlook) (ofClass : ClassId) (field : StaticField) : Prop :=
  ∀ object, live.Behind ofClass field object →
    outlook.accepted object ∨ outlook.FitObject live excluded object

/-- A class is fit, and its static reference fields pass. -/
def Preserves (outlook : Outlook) (ofClass : ClassId) : Prop :=
  outlook.Fit live excluded ofClass ∧
    ∀ field ∈ live.references ofClass, outlook.Passes live excluded ofClass field

/-- An object lies behind one of these fields, before the first that does not pass. -/
def Takes (outlook : Outlook) (ofClass : ClassId) : List StaticField → ObjectId → Prop
  | [], _ => False
  | field :: rest, object => outlook.Passes live excluded ofClass field ∧
      (live.Behind ofClass field object ∨ outlook.Takes ofClass rest object)

/-- Examine a class that was not examined yet. -/
def examine (outlook : Outlook) (ofClass : ClassId) : Outlook where
  examined other := outlook.examined other ∨ other = ofClass
  rejected other := outlook.rejected other ∨
    other = ofClass ∧ ¬ outlook.examined ofClass ∧ ¬ outlook.Preserves live excluded ofClass
  accepted object := outlook.accepted object ∨
    ¬ outlook.examined ofClass ∧ outlook.Fit live excluded ofClass ∧
      outlook.Takes live excluded ofClass (live.references ofClass) object

/-- What is settled when these classes have been examined in this order. -/
def after (classes : List ClassId) : Outlook :=
  classes.foldl (·.examine live excluded ·) start

variable {live excluded} {outlook : Outlook} {ofClass : ClassId}

private theorem examined_foldl {classes : List ClassId} :
    (classes.foldl (·.examine live excluded ·) outlook).examined ofClass ↔
      outlook.examined ofClass ∨ ofClass ∈ classes := by
  induction classes generalizing outlook with
  | nil => simp
  | cons head rest ih => rw [List.foldl_cons, ih, List.mem_cons, examine, or_assoc]

theorem rejected_foldl {classes : List ClassId} (examined : outlook.examined ofClass) :
    (classes.foldl (·.examine live excluded ·) outlook).rejected ofClass ↔
      outlook.rejected ofClass := by
  induction classes generalizing outlook with
  | nil => exact Iff.rfl
  | cons head rest ih =>
    rw [List.foldl_cons, ih (Or.inl examined)]
    constructor
    · rintro (old | ⟨rfl, fresh, _⟩)
      · exact old
      · exact absurd examined fresh
    · exact .inl

theorem examined_of_rejected {classes : List ClassId}
    (rejected : (after live excluded classes).rejected ofClass) : ofClass ∈ classes := by
  by_cases member : ofClass ∈ classes
  · exact member
  have untouched : ∀ (outlook : Outlook), ¬ outlook.rejected ofClass →
      ¬ (classes.foldl (·.examine live excluded ·) outlook).rejected ofClass := by
    clear rejected
    induction classes with
    | nil => exact fun _ => id
    | cons head rest ih =>
      intro outlook clear_
      obtain ⟨apart, later⟩ := not_or.mp (mt List.mem_cons.mpr member)
      refine ih later _ ?_
      rintro (old | ⟨same, _⟩)
      · exact clear_ old
      · exact apart same
  exact absurd rejected (untouched start id)

/-- The verdict on a class is settled when its turn comes, by what is settled until then. -/
theorem rejected_after {front back : List ClassId} (first : ofClass ∉ front) :
    (after live excluded (front ++ ofClass :: back)).rejected ofClass ↔
      ¬ (after live excluded front).Preserves live excluded ofClass := by
  have fresh : ¬ (after live excluded front).examined ofClass := by
    rw [after, examined_foldl]
    exact fun examined => first (examined.resolve_left id)
  have unrejected : ¬ (after live excluded front).rejected ofClass :=
    fun rejected => first (examined_of_rejected rejected)
  rw [after, List.foldl_append, List.foldl_cons, rejected_foldl (Or.inr rfl)]
  show (after live excluded front).rejected ofClass ∨ _ ↔ _
  simp only [unrejected, false_or, true_and]
  exact and_iff_right fresh

end Outlook

namespace Screening

variable {screening : Screening} {live : Live} {ofClass : ClassId}

def outlook (screening : Screening) : Outlook where
  examined ofClass := screening.verdict ofClass ≠ .unchecked
  rejected ofClass := screening.verdict ofClass = .notPreservable
  accepted object := screening.clean.contains object = true

private theorem admits_iff {loaded : LoadedClass}
    (present : live.classes[ofClass.index]? = some loaded) :
    screening.admits ofClass loaded.shape = true ↔
      screening.outlook.Fit live screening.excluded ofClass := by
  simp only [admits, Outlook.Fit, outlook, present, Option.some.injEq, exists_eq_left',
    Bool.and_eq_true, Bool.not_eq_true', bne_iff_ne, and_assoc, ne_eq]
  rw [← Bool.not_eq_true (screening.excluded.contains loaded.shape.name), List.contains_iff_mem]

private theorem admissible_iff {object : ObjectId} : screening.Admissible live object ↔
    screening.outlook.FitObject live screening.excluded object := by
  constructor
  · rintro ⟨seen, found, fit⟩
    obtain ⟨loaded, present, same⟩ := Live.shape_of_portrait? found
    exact ⟨seen, found, (admits_iff present).mp (same ▸ fit)⟩
  · rintro ⟨seen, found, fit⟩
    obtain ⟨loaded, present, same⟩ := Live.shape_of_portrait? found
    exact ⟨seen, found, same ▸ (admits_iff present).mpr fit⟩

private theorem checkStatic_checked (closed : live.Closed) (coherent : screening.Coherent live)
    {field : StaticField} (declared : field ∈ live.references ofClass) :
    ∃ answer after, screening.checkStatic live ofClass field.offset = .ok (answer, after) ∧
      screening.Checked live (screening.outlook.Passes live screening.excluded ofClass field)
        (fun object => screening.outlook.Passes live screening.excluded ofClass field ∧
          live.Behind ofClass field object) answer after := by
  obtain ⟨slot, value⟩ : ∃ slot, live.static? ofClass field.offset = some slot := by
    unfold Live.references at declared
    split at declared
    · rename_i loaded present
      exact Live.exists_static present (Array.mem_toList_iff.mp (List.mem_filter.mp declared).1)
    · cases declared
  have plain (nowhere : ∀ root, slot ≠ .ref root) :
      screening.Checked live (screening.outlook.Passes live screening.excluded ofClass field)
        (fun object => screening.outlook.Passes live screening.excluded ofClass field ∧
          live.Behind ofClass field object) true screening := by
    have none (object : ObjectId) : ¬ live.Behind ofClass field object := by
      rintro ⟨root, found, _⟩
      rw [value] at found
      exact nowhere root (Option.some.inj found)
    exact ⟨by simp [Outlook.Passes, none], by simp [none], rfl, rfl, coherent⟩
  cases slot with
  | bits word => exact ⟨true, screening, by rw [checkStatic, value], plain (by simp)⟩
  | null => exact ⟨true, screening, by rw [checkStatic, value], plain (by simp)⟩
  | ref root =>
    obtain ⟨answer, after, done, checked⟩ :=
      checkObject_checked closed coherent (closed.static value)
    have behind (object : ObjectId) :
        live.Behind ofClass field object ↔ live.Reaches root object := by
      simp [Live.Behind, value]
    have passes : screening.Passes live root ↔
        screening.outlook.Passes live screening.excluded ofClass field := by
      simp only [Passes, Outlook.Passes, behind, admissible_iff]
      rfl
    refine ⟨answer, after, by rw [checkStatic, value]; exact done, ?_⟩
    simp only [behind, ← passes]
    exact checked

/-- What a field that passes adds is fit or was accepted before, so it changes no later answer. -/
theorem passes_checked {field : StaticField} {middle : Screening} {answer : Bool}
    (passes : screening.outlook.Passes live screening.excluded ofClass field)
    (checked : screening.Checked live
      (screening.outlook.Passes live screening.excluded ofClass field)
      (fun object => screening.outlook.Passes live screening.excluded ofClass field ∧
        live.Behind ofClass field object) answer middle) :
    middle.outlook.Passes live middle.excluded ofClass =
      screening.outlook.Passes live screening.excluded ofClass := by
  funext other
  apply propext
  have fit (object : ObjectId) : middle.outlook.FitObject live middle.excluded object ↔
      screening.outlook.FitObject live screening.excluded object := by
    rw [← admissible_iff, ← admissible_iff]
    exact admissible_congr checked.verdicts checked.excluded
  constructor
  · intro later object behind
    rcases later object behind with accepted | admissible
    · rcases (checked.clean object).mp accepted with old | ⟨_, here⟩
      · exact .inl old
      · exact passes object here
    · exact .inr ((fit object).mp admissible)
  · intro earlier object behind
    exact (earlier object behind).imp (fun old => (checked.clean object).mpr (.inl old))
      (fit object).mpr

/-- A check of some reference fields accepts what lies behind those up to the first that fails. -/
theorem checkStatics_checked (closed : live.Closed) (fields : List StaticField)
    (coherent : screening.Coherent live)
    (declared : ∀ field ∈ fields, field ∈ live.references ofClass) :
    ∃ answer after, screening.checkStatics live ofClass fields = .ok (answer, after) ∧
      screening.Checked live
        (∀ field ∈ fields, screening.outlook.Passes live screening.excluded ofClass field)
        (screening.outlook.Takes live screening.excluded ofClass fields) answer after := by
  induction fields generalizing screening with
  | nil => exact ⟨true, screening, rfl, by simp, by simp [Outlook.Takes], rfl, rfl, coherent⟩
  | cons field rest ih =>
    obtain ⟨first, middle, done, checked⟩ :=
      checkStatic_checked closed coherent (declared field List.mem_cons_self)
    cases first with
    | false =>
      have fails : ¬ screening.outlook.Passes live screening.excluded ofClass field := by
        rw [← checked.answer]
        exact Bool.false_ne_true
      refine ⟨false, middle, by rw [checkStatics, done], ?_, ?_, checked.verdicts,
        checked.excluded, checked.coherent⟩
      · simp [fails]
      · simpa [fails, Outlook.Takes] using checked.clean
    | true =>
      have passes := checked.answer.mp rfl
      have same := passes_checked passes checked
      have takes (fields : List StaticField) (object : ObjectId) :
          middle.outlook.Takes live middle.excluded ofClass fields object ↔
            screening.outlook.Takes live screening.excluded ofClass fields object := by
        induction fields with
        | nil => exact Iff.rfl
        | cons other others ih => rw [Outlook.Takes, Outlook.Takes, same, ih]
      obtain ⟨answer, after, finished, later⟩ := ih checked.coherent fun other member =>
        declared other (List.mem_cons_of_mem _ member)
      refine ⟨answer, after, by rw [checkStatics, done]; exact finished, ?_, ?_,
        later.verdicts.trans checked.verdicts, later.excluded.trans checked.excluded,
        later.coherent⟩
      · rw [later.answer, same]
        simp [passes]
      · intro object
        rw [later.clean, checked.clean, takes, Outlook.Takes]
        simp only [passes, true_and, or_assoc]

private theorem verdict_settle (screening : Screening) (ofClass : ClassId) (passed : Bool)
    (other : ClassId) : (screening.settle ofClass passed).verdict other =
      if other = ofClass then (if passed then .preservable else .notPreservable)
      else screening.verdict other := by
  rw [verdict, settle, Std.TreeMap.getElem?_insert]
  by_cases same : other = ofClass
  · simp [same]
  · simp [same, Ne.symm same, verdict]

private theorem outlook_settle {fits : Prop} {takes : ObjectId → Prop} {middle : Screening}
    {passed : Bool} (fresh : screening.verdict ofClass = .unchecked)
    (checked : screening.Checked live fits takes passed middle) :
    (middle.settle ofClass passed).outlook = {
      examined := fun other => screening.outlook.examined other ∨ other = ofClass
      rejected := fun other => screening.outlook.rejected other ∨ other = ofClass ∧ ¬ fits
      accepted := fun object => screening.outlook.accepted object ∨ takes object } := by
  have verdict (other : ClassId) : middle.verdict other = screening.verdict other := by
    rw [Screening.verdict, checked.verdicts]
    rfl
  ext other
  · show (middle.settle ofClass passed).verdict other ≠ .unchecked ↔ _
    rw [verdict_settle, verdict]
    by_cases same : other = ofClass
    · cases passed <;> simp [same]
    · simp [same, outlook]
  · show (middle.settle ofClass passed).verdict other = .notPreservable ↔ _
    rw [verdict_settle, verdict, ← checked.answer]
    by_cases same : other = ofClass
    · cases passed <;> simp [same, outlook, fresh]
    · simp [same, outlook]
  · exact checked.clean other

private theorem admissible_of_settle {passed : Bool} {object : ObjectId}
    (fresh : screening.verdict ofClass = .unchecked)
    (admissible : (screening.settle ofClass passed).Admissible live object) :
    screening.Admissible live object := by
  obtain ⟨seen, found, fit⟩ := admissible
  refine ⟨seen, found, ?_⟩
  simp only [admits, verdict_settle, Bool.and_eq_true, bne_iff_ne] at fit ⊢
  refine ⟨fit.1, ?_⟩
  by_cases same : seen.ofClass = ofClass
  · rw [same, fresh]
    decide
  · rw [if_neg same] at fit
    exact fit.2

private theorem checkShape_checked (closed : live.Closed) (coherent : screening.Coherent live)
    {loaded : LoadedClass} (present : live.classes[ofClass.index]? = some loaded) :
    ∃ passed after, screening.checkShape live ofClass loaded.shape = .ok (passed, after) ∧
      screening.Checked live (screening.outlook.Preserves live screening.excluded ofClass)
        (fun object => screening.outlook.Fit live screening.excluded ofClass ∧
          screening.outlook.Takes live screening.excluded ofClass (live.references ofClass) object)
        passed after := by
  have references :
      live.references ofClass = loaded.shape.statics.toList.filter (·.isReference) := by
    rw [Live.references, present]
  rw [checkShape, ← references]
  by_cases fit : screening.admits ofClass loaded.shape = true
  · obtain ⟨passed, after, done, checked⟩ :=
      checkStatics_checked closed (live.references ofClass) coherent fun _ member => member
    refine ⟨passed, after, by rw [if_pos fit]; exact done, ?_⟩
    simpa only [Outlook.Preserves, (admits_iff present).mp fit, true_and] using checked
  · refine ⟨false, screening, if_neg fit, ?_⟩
    rw [admits_iff present] at fit
    exact ⟨by simp [Outlook.Preserves, fit], by simp [fit], rfl, rfl, coherent⟩

theorem checkClass_outlook (closed : live.Closed) (coherent : screening.Coherent live)
    (loaded : ofClass.index < live.classes.size) :
    ∃ after, screening.checkClass live ofClass = .ok after ∧
      after.outlook = screening.outlook.examine live screening.excluded ofClass ∧
      after.excluded = screening.excluded ∧ after.Coherent live := by
  by_cases examined : screening.verdict ofClass ≠ .unchecked
  · refine ⟨screening, if_pos examined, ?_, rfl, coherent⟩
    have again : screening.outlook.examined ofClass := examined
    ext other
    · exact ⟨.inl, Or.rec id fun same => same ▸ again⟩
    · simp [Outlook.examine, again]
    · simp [Outlook.examine, again]
  · have present := Array.getElem?_eq_getElem loaded
    obtain ⟨passed, middle, done, checked⟩ := checkShape_checked closed coherent present
    have shape := Live.shapeOf_eq loaded
    have fresh : screening.verdict ofClass = .unchecked := Decidable.not_not.mp examined
    refine ⟨middle.settle ofClass passed, ?_, ?_, checked.excluded, checked.coherent.clean, ?_⟩
    · simp only [checkClass, if_neg examined, shape, bind, Except.bind, done]
      rfl
    · have unexamined : ¬ screening.outlook.examined ofClass := examined
      rw [outlook_settle fresh checked, Outlook.examine]
      simp only [unexamined, not_false_eq_true, true_and]
    · intro object tainted
      have unfit := checked.coherent.tainted object tainted
      refine ⟨fun admissible => unfit.1 (admissible_of_settle ?_ admissible), unfit.2⟩
      rw [Screening.verdict, checked.verdicts]
      exact fresh

private theorem checkEachClass_outlook (closed : live.Closed) (classes : List ClassId)
    (coherent : screening.Coherent live)
    (loaded : ∀ ofClass ∈ classes, ofClass.index < live.classes.size) :
    ∃ after, classes.foldlM (·.checkClass live ·) screening = .ok after ∧
      after.outlook = classes.foldl (·.examine live screening.excluded ·) screening.outlook := by
  induction classes generalizing screening with
  | nil => exact ⟨screening, rfl, rfl⟩
  | cons head rest ih =>
    obtain ⟨middle, done, same, excluded, kept⟩ :=
      checkClass_outlook closed coherent (loaded head List.mem_cons_self)
    obtain ⟨after, finished, later⟩ := ih kept fun other member =>
      loaded other (List.mem_cons_of_mem _ member)
    refine ⟨after, ?_, ?_⟩
    · rw [List.foldlM_cons, done]
      exact finished
    · rw [later, same, excluded, List.foldl_cons]

/-- Checking classes gives each of them a verdict when its turn comes: it is preservable exactly if
it is fit, and every object behind its static reference fields is fit or was accepted before, behind
a field of a class examined earlier. What is rejected until then are the classes in front of it
whose verdict is that they are not preservable. -/
theorem verdict_checkClasses (closed : live.Closed) (excluded : List String)
    (classes : List ClassId) (loaded : ∀ ofClass ∈ classes, ofClass.index < live.classes.size) :
    ∃ screening, (start excluded).checkClasses live classes = .ok screening ∧
      ∀ front ofClass back, classes = front ++ ofClass :: back → ofClass ∉ front →
        let outlook := Outlook.after live excluded front
        (screening.verdict ofClass = .preservable ↔
          outlook.Fit live excluded ofClass ∧ ∀ field ∈ live.references ofClass, ∀ object,
            live.Behind ofClass field object →
              outlook.accepted object ∨ outlook.FitObject live excluded object) ∧
        (screening.verdict ofClass ≠ .preservable → screening.verdict ofClass = .notPreservable) ∧
        ∀ other, outlook.rejected other ↔
          other ∈ front ∧ screening.verdict other = .notPreservable := by
  have unmet : (start excluded).outlook = Outlook.start := by
    ext other <;> simp [start, outlook, verdict, Outlook.start]
  have coherent : (start excluded).Coherent live :=
    ⟨fun _ _ member => by simp [start] at member, fun _ member => by simp [start] at member⟩
  obtain ⟨last, done, same⟩ := checkEachClass_outlook closed classes coherent loaded
  rw [unmet] at same
  refine ⟨{ last with clean := ∅ }, by rw [checkClasses, done]; rfl, ?_⟩
  intro front ofClass back split first outlook
  have rejected (other : ClassId) : last.verdict other = .notPreservable ↔
      (Outlook.after live excluded classes).rejected other :=
    Iff.of_eq (congrArg (Outlook.rejected · other) same)
  have examined (other : ClassId) : last.verdict other ≠ .unchecked ↔
      (Outlook.after live excluded classes).examined other :=
    Iff.of_eq (congrArg (Outlook.examined · other) same)
  have settled : last.verdict ofClass ≠ .unchecked := by
    rw [examined, Outlook.after, Outlook.examined_foldl, split]
    simp
  have verdict : last.verdict ofClass = .notPreservable ↔
      ¬ outlook.Preserves live excluded ofClass := by
    rw [rejected, split, Outlook.rejected_after first]
  refine ⟨?_, ?_, ?_⟩
  · show last.verdict ofClass = .preservable ↔ outlook.Preserves live excluded ofClass
    rw [← not_iff_not, ← verdict]
    cases here : last.verdict ofClass with
    | unchecked => exact absurd here settled
    | preservable => simp
    | notPreservable => simp
  · intro other
    show last.verdict ofClass = .notPreservable
    cases here : last.verdict ofClass with
    | unchecked => exact absurd here settled
    | preservable => exact absurd here other
    | notPreservable => rfl
  · intro other
    show _ ↔ other ∈ front ∧ last.verdict other = .notPreservable
    have kept (member : other ∈ front) :
        last.verdict other = .notPreservable ↔ outlook.rejected other := by
      rw [rejected, split, Outlook.after, List.foldl_append]
      exact Outlook.rejected_foldl (Outlook.examined_foldl.mpr (.inr member))
    constructor
    · intro gone
      have member := Outlook.examined_of_rejected gone
      exact ⟨member, (kept member).mpr gone⟩
    · rintro ⟨member, gone⟩
      exact (kept member).mp gone

/-- A registry that holds itself and a lock, and a user that holds the registry. -/
def registry : Live where
  classes := #[
    { shape := {
        name := "Registry"
        traits := .plain
        statics := #[⟨"SELF", 16, true⟩, ⟨"LOCK", 24, true⟩]
        placed := by decide }
      statics := #[.ref ⟨0⟩, .ref ⟨1⟩]
      sized := rfl },
    { shape := .named "Lock" ⟨false, true⟩
      statics := #[]
      sized := rfl },
    { shape := {
        name := "User"
        traits := .plain
        statics := #[⟨"REG", 16, true⟩]
        placed := by decide }
      statics := #[.ref ⟨0⟩]
      sized := rfl }]
  objects := #[⟨⟨0⟩, #[]⟩, ⟨⟨1⟩, #[]⟩]
  distinct := by decide
  classified := by decide
  numbered := by decide

/-- The registry is accepted behind the first field of its class, which is then rejected for the
lock; the user passes all the same, though the registry is an instance of a rejected class. -/
theorem verdict_checkClasses_registry :
    ∃ screening, (start []).checkClasses registry [⟨0⟩, ⟨2⟩] = .ok screening ∧
      screening.verdict ⟨0⟩ = .notPreservable ∧ screening.verdict ⟨2⟩ = .preservable ∧
      (Outlook.after registry [] [⟨0⟩]).accepted ⟨0⟩ ∧
      ¬ (Outlook.after registry [] [⟨0⟩]).FitObject registry [] ⟨0⟩ := by
  have closed : registry.Closed := Live.closed_of_targets (by decide) (by decide)
  obtain ⟨screening, done, verdicts⟩ :=
    verdict_checkClasses closed [] [⟨0⟩, ⟨2⟩] (by decide)
  have run : ((start []).checkClasses registry [⟨0⟩, ⟨2⟩]).toOption.map
      (fun screening => (screening.verdict ⟨0⟩, screening.verdict ⟨2⟩)) =
        some (.notPreservable, .preservable) := by decide +kernel
  rw [done] at run
  obtain ⟨gone, kept⟩ := Prod.mk.inj (Option.some.inj run)
  refine ⟨screening, done, gone, kept, ?_⟩
  obtain ⟨user, _, rejected⟩ := verdicts [⟨0⟩] ⟨2⟩ [] rfl (by decide)
  have unfit : ¬ (Outlook.after registry [] [⟨0⟩]).FitObject registry [] ⟨0⟩ := by
    rintro ⟨seen, found, _, _, _, _, fit⟩
    rw [Live.portrait?_eq_some (by decide)] at found
    cases found
    exact fit ((rejected ⟨0⟩).mpr ⟨List.mem_cons_self, gone⟩)
  have behind := (user.mp kept).2 ⟨"REG", 16, true⟩ (by decide) ⟨0⟩ ⟨⟨0⟩, by decide, .refl⟩
  exact ⟨behind.resolve_right unfit, unfit⟩

end Screening
end FrozenHeap
