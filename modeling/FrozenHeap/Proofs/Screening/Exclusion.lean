import FrozenHeap.Proofs.Live
import FrozenHeap.Proofs.Reach
import FrozenHeap.Screening

namespace FrozenHeap.Screening

variable {screening after : Screening} {live : Live} {passed : Bool} {ofClass : ClassId}

private theorem excluded_checkObject {root : ObjectId}
    (done : screening.checkObject live root = .ok (passed, after)) :
    after.excluded = screening.excluded := by
  unfold checkObject at done
  split at done
  · cases done
  · cases done
    rfl
  · cases done
    rfl

private theorem excluded_checkStatic {offset : UInt32}
    (done : screening.checkStatic live ofClass offset = .ok (passed, after)) :
    after.excluded = screening.excluded := by
  unfold checkStatic at done
  split at done
  · exact excluded_checkObject done
  · cases done
    rfl
  · cases done
    rfl

private theorem excluded_checkStatics {fields : List StaticField}
    (done : screening.checkStatics live ofClass fields = .ok (passed, after)) :
    after.excluded = screening.excluded := by
  induction fields generalizing screening with
  | nil =>
    cases done
    rfl
  | cons field rest ih =>
    unfold checkStatics at done
    split at done
    · cases done
    · rename_i middle first
      exact (ih done).trans (excluded_checkStatic first)
    · rename_i middle first
      cases done
      exact excluded_checkStatic first

private theorem excluded_checkShape {shape : ClassShape}
    (done : screening.checkShape live ofClass shape = .ok (passed, after)) :
    after.excluded = screening.excluded := by
  unfold checkShape at done
  split at done
  · exact excluded_checkStatics done
  · cases done
    rfl

private theorem excluded_checkClass (done : screening.checkClass live ofClass = .ok after) :
    after.excluded = screening.excluded := by
  unfold checkClass at done
  split at done
  · cases done
    rfl
  · obtain ⟨shape, _, done⟩ := bind_eq_ok_iff.mp done
    obtain ⟨⟨passed, middle⟩, checked, same⟩ := bind_eq_ok_iff.mp done
    cases same
    exact (excluded_checkShape checked :)

theorem excluded_checkClasses {classes : List ClassId}
    (done : screening.checkClasses live classes = .ok after) :
    after.excluded = screening.excluded := by
  obtain ⟨middle, checked, same⟩ := bind_eq_ok_iff.mp done
  cases same
  exact foldlM_preserves (fun state => state.excluded = screening.excluded)
    (fun _ _ _ _ step kept => (excluded_checkClass step).trans kept) rfl checked

private theorem excluded_checkNomination {nomination checked : Nomination}
    (done : screening.checkNomination live nomination = .ok (checked, after)) :
    after.excluded = screening.excluded := by
  unfold checkNomination at done
  split at done
  · split at done
    · cases done
    · rename_i passes
      cases done
      exact excluded_checkStatic passes
    · rename_i fails
      cases done
      exact excluded_checkStatic fails
  · cases done
    rfl

theorem excluded_checkFields {nominations checked : List Nomination}
    (done : screening.checkFields live nominations = .ok (checked, after)) :
    after.excluded = screening.excluded := by
  unfold checkFields at done
  generalize nominations.map (·.resolve live) = resolved at done
  induction resolved generalizing screening checked with
  | nil =>
    cases done
    rfl
  | cons nomination rest ih =>
    obtain ⟨⟨first, middle⟩, head, done⟩ := bind_eq_ok_iff.mp done
    obtain ⟨⟨others, last⟩, tail, same⟩ := bind_eq_ok_iff.mp done
    cases same
    exact (ih tail).trans (excluded_checkNomination head)

/-- Instances of classes of this name may not be archived: it is excluded, or it is the name of a
class that is flagged, or that was found not preservable. -/
def Bars (screening : Screening) (live : Live) (excluded : List String) (name : String) : Prop :=
  name ∈ excluded ∨ ∃ ofClass loaded, live.classes[ofClass.index]? = some loaded ∧
    loaded.shape.name = name ∧ (loaded.shape.traits.identitySensitive = true ∨
      loaded.shape.traits.externalResource = true ∨ screening.verdict ofClass = .notPreservable)

/-- This is the name of a class whose instances may be archived. -/
def Permits (screening : Screening) (live : Live) (name : String) : Prop :=
  ∃ ofClass loaded, live.classes[ofClass.index]? = some loaded ∧ loaded.shape.name = name ∧
    screening.admits ofClass loaded.shape = true

theorem Permits.of_portrait? {object : ObjectId} {seen : Portrait}
    (found : live.portrait? object = some seen)
    (fit : screening.admits seen.ofClass seen.shape = true) :
    screening.Permits live seen.shape.name := by
  obtain ⟨loaded, present, same⟩ := Live.shape_of_portrait? found
  exact ⟨seen.ofClass, loaded, present, congrArg ClassShape.name same, same ▸ fit⟩

/-- No name is both permitted and barred, because no two classes share one. -/
theorem Permits.not_bars {name : String} (permits : screening.Permits live name) :
    ¬ screening.Bars live screening.excluded name := by
  obtain ⟨ofClass, loaded, present, named, fit⟩ := permits
  simp only [admits, Traits.unfit, Bool.and_eq_true, Bool.not_eq_true', Bool.or_eq_false_iff,
    bne_iff_ne, List.contains_eq_mem, decide_eq_false_iff_not] at fit
  obtain ⟨⟨⟨sensitive, resource⟩, free⟩, judged⟩ := fit
  rintro (excluded | ⟨other, again, found, title, flagged⟩)
  · exact free (named ▸ excluded)
  · have here := Live.classNamed?_of_getElem? present
    have there := Live.classNamed?_of_getElem? found
    rw [named, ← title, there] at here
    obtain rfl : other = ofClass := Option.some.inj here
    cases present.symm.trans found
    rcases flagged with identity | wrapped | rejected
    · exact absurd identity (Bool.eq_false_iff.mp sensitive)
    · exact absurd wrapped (Bool.eq_false_iff.mp resource)
    · exact judged rejected

end FrozenHeap.Screening
