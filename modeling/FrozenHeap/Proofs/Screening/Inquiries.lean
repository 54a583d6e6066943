import FrozenHeap.Proofs.Screening.Nominations

/-! Inquiries of a screening. It remembers what it found clean and tainted from one inquiry to
the next, while its verdicts on classes change; what it answers is what a search without
memory would. -/

namespace FrozenHeap

/-- What a screening can be asked to check. -/
inductive Inquiry where
  | classes (list : List ClassId)
  | fields (nominations : List Nomination)
  | object (root : ObjectId)

namespace Inquiry

def Regards (live : Live) : Inquiry → Prop
  | classes list => ∀ ofClass ∈ list, ofClass.index < live.classes.size
  | fields nominations => ∀ nomination ∈ nominations, nomination.Consistent live
  | object root => root.index < live.objects.size

def ask (live : Live) (screening : Screening) : Inquiry → Run Screening
  | classes list => screening.checkClasses live list
  | fields nominations => do return (← screening.checkFields live nominations).2
  | object root => do return (← screening.checkObject live root).2

end Inquiry

namespace Screening

/-- What a screening answers for an object or for nominations depends on its verdicts, and on
nothing else that it remembers. -/
structure Transparent (screening : Screening) (live : Live) : Prop where
  object : ∀ root : ObjectId, root.index < live.objects.size →
    ∃ answer after, screening.checkObject live root = .ok (answer, after) ∧
      (answer = true ↔ ∀ object, live.Reaches root object → screening.Admissible live object)
  fields : ∀ nominations : List Nomination,
    (∀ nomination ∈ nominations, nomination.Consistent live) →
    ∃ weighed after, screening.checkFields live nominations = .ok (weighed, after) ∧
      List.Forall₂ (screening.Weighed live) nominations weighed ∧
      ∀ nomination ∈ weighed, nomination.Consistent live

variable {screening : Screening} {live : Live}

theorem Sound.start (excluded : List String) (live : Live) : (start excluded).Sound live where
  coherent := .start excluded live
  clean object clean := by simp [Screening.start] at clean

private theorem Sound.transparent (sound : screening.Sound live) (closed : live.Closed) :
    screening.Transparent live where
  object root inside := by
    obtain ⟨answer, after, done, _, checked⟩ := sound.checkObject closed inside
    exact ⟨answer, after, done, checked⟩
  fields nominations consistent := by
    obtain ⟨weighed, after, done, _, weighs⟩ := sound.weighFields closed consistent
    refine ⟨weighed, after, done, weighs, fun nomination member => ?_⟩
    obtain ⟨_, _, weighs⟩ := exists_left_of_forall₂ weighs nomination member
    exact weighs.consistent

/-- An inquiry has an answer, and leaves only admissible objects clean. -/
theorem Sound.ask (sound : screening.Sound live) (closed : live.Closed) {inquiry : Inquiry}
    (regards : inquiry.Regards live) :
    ∃ after, inquiry.ask live screening = .ok after ∧ after.Sound live := by
  cases inquiry with
  | classes list => exact exists_checkClasses closed sound.coherent regards
  | fields nominations =>
    obtain ⟨weighed, after, done, continued, _⟩ := sound.weighFields closed regards
    exact ⟨after, bind_eq_ok_iff.mpr ⟨_, done, rfl⟩, continued.sound⟩
  | object root =>
    obtain ⟨answer, after, done, continued, _⟩ := sound.checkObject closed regards
    exact ⟨after, bind_eq_ok_iff.mpr ⟨_, done, rfl⟩, continued.sound⟩

/-- Whatever a screening was asked before, it answers as if it had to search anew. -/
theorem transparent_of_inquiries (closed : live.Closed) (excluded : List String)
    {inquiries : List Inquiry} (regards : ∀ inquiry ∈ inquiries, inquiry.Regards live) :
    ∃ screening, inquiries.foldlM (Inquiry.ask live) (start excluded) = .ok screening ∧
      screening.Transparent live := by
  suffices ∀ before : Screening, before.Sound live → ∃ screening,
      inquiries.foldlM (Inquiry.ask live) before = .ok screening ∧ screening.Sound live by
    obtain ⟨screening, asked, sound⟩ := this _ (.start excluded live)
    exact ⟨screening, asked, sound.transparent closed⟩
  induction inquiries with
  | nil => exact fun before sound => ⟨before, rfl, sound⟩
  | cons inquiry rest ih =>
    intro before sound
    obtain ⟨middle, first, kept⟩ := sound.ask closed (regards inquiry List.mem_cons_self)
    obtain ⟨screening, others, last⟩ :=
      ih (fun other member => regards other (List.mem_cons_of_mem _ member)) middle kept
    refine ⟨screening, ?_, last⟩
    rw [List.foldlM_cons, first]
    exact others

/-- A registry is found clean before its class is rejected, and nominated through two fields. -/
def registryInquiries : List Inquiry :=
  [.object ⟨0⟩, .classes [⟨0⟩], .fields [.of "User" "REG" .opened, .of "User" "LOCK" .closed]]

/-- A registry that was found clean before its class was rejected is found unfit afterwards. -/
theorem transparent_of_inquiries_registry : ∃ screening after,
    registryInquiries.foldlM (Inquiry.ask registry) (start []) = .ok screening ∧
    screening.checkObject registry ⟨0⟩ = .ok (false, after) ∧
    ¬ ∀ object, registry.Reaches ⟨0⟩ object → screening.Admissible registry object := by
  have closed : registry.Closed := Live.closed_of_targets (by decide) (by decide)
  have regards : ∀ inquiry ∈ registryInquiries, inquiry.Regards registry := by
    intro inquiry member
    simp only [registryInquiries, List.mem_cons, List.not_mem_nil, or_false] at member
    rcases member with rfl | rfl | rfl
    · exact (by decide : 0 < 2)
    · intro ofClass listed
      rw [List.mem_singleton.mp listed]
      decide
    · intro nomination listed
      simp only [List.mem_cons, List.not_mem_nil, or_false] at listed
      rcases listed with rfl | rfl <;> exact .inl rfl
  have run : (registryInquiries.foldlM (Inquiry.ask registry) (start [])).toOption.any
      (fun screening => (screening.checkObject registry ⟨0⟩).toOption.any (!·.1)) = true := by
    decide +kernel
  obtain ⟨screening, asked, transparent⟩ := transparent_of_inquiries closed [] regards
  obtain ⟨answer, after, done, checked⟩ := transparent.object ⟨0⟩ (by decide)
  simp only [asked, done, Except.toOption, Option.any_some, Bool.not_eq_true'] at run
  subst run
  exact ⟨screening, after, asked, done, fun passes => Bool.false_ne_true (checked.mpr passes)⟩

end Screening
end FrozenHeap
