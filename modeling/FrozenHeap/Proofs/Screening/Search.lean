import FrozenHeap.Proofs.Reach
import FrozenHeap.Screening

namespace FrozenHeap.Screening

/-- An object exists, and instances of its class are admitted. -/
def Admissible (screening : Screening) (live : Live) (object : ObjectId) : Prop :=
  ∃ seen, live.portrait? object = some seen ∧ screening.admits seen.ofClass seen.shape = true

/-- References lead from clean objects to clean objects, and tainted objects are not admissible. -/
structure Coherent (screening : Screening) (live : Live) : Prop where
  clean : ∀ object target, screening.clean.contains object = true → live.Refers object target →
    screening.clean.contains target = true
  tainted : ∀ object, screening.tainted.contains object = true →
    ¬ screening.Admissible live object ∧ screening.clean.contains object = false

variable {screening : Screening} {live : Live} {root : ObjectId}

theorem Coherent.start (excluded : List String) (live : Live) :
    (Screening.start excluded).Coherent live :=
  ⟨fun _ _ clean => by simp [Screening.start] at clean,
    fun _ tainted => by simp [Screening.start] at tainted⟩

/-- A search from `root` has found the visited objects fit, and has those of the stack
still ahead. -/
structure Searching (screening : Screening) (live : Live) (root : ObjectId)
    (stack : List ObjectId) (visited : Std.TreeSet ObjectId) : Prop where
  ahead : ∀ object ∈ stack, live.Reaches root object
  behind : ∀ object, visited.contains object = true →
    live.Reaches root object ∧ screening.Admissible live object
  pending : ∀ target, (target = root ∨
    ∃ object, visited.contains object = true ∧ live.Refers object target) →
    target ∈ stack ∨ visited.contains target = true ∨ screening.clean.contains target = true

namespace Searching

variable {stack : List ObjectId} {visited : Std.TreeSet ObjectId}

theorem start (screening : Screening) (live : Live) (root : ObjectId) :
    screening.Searching live root [root] ∅ where
  ahead object member := by
    rw [List.mem_singleton.mp member]
    exact .refl
  behind object member := by simp at member
  pending target asked := by
    rcases asked with rfl | ⟨_, member, _⟩
    · exact .inl List.mem_cons_self
    · simp at member

theorem skip {object : ObjectId} {rest : List ObjectId}
    (searching : screening.Searching live root (object :: rest) visited)
    (done : visited.contains object = true ∨ screening.clean.contains object = true) :
    screening.Searching live root rest visited where
  ahead other member := searching.ahead other (List.mem_cons_of_mem _ member)
  behind := searching.behind
  pending target asked := by
    rcases searching.pending target asked with listed | settled
    · rcases List.mem_cons.mp listed with rfl | later
      · exact .inr done
      · exact .inl later
    · exact .inr settled

/-- An object that is fit is visited, and what it refers to lies ahead. -/
theorem visit {object : ObjectId} {rest : List ObjectId} {seen : Portrait}
    (searching : screening.Searching live root (object :: rest) visited)
    (found : live.portrait? object = some seen)
    (fit : screening.admits seen.ofClass seen.shape = true) :
    screening.Searching live root ((targetsOf seen.slots).reverse ++ rest)
      (visited.insert object) where
  ahead other member := by
    rcases List.mem_append.mp member with target | later
    · exact (searching.ahead object List.mem_cons_self).tail
        ⟨seen, found, mem_targetsOf.mp (List.mem_reverse.mp target)⟩
    · exact searching.ahead other (List.mem_cons_of_mem _ later)
  behind other member := by
    rw [Std.TreeSet.contains_insert, Bool.or_eq_true] at member
    rcases member with same | before
    · rw [← Std.LawfulEqOrd.eq_of_compare (eq_of_beq same)]
      exact ⟨searching.ahead object List.mem_cons_self, seen, found, fit⟩
    · exact searching.behind other before
  pending target asked := by
    have older (earlier : target ∈ object :: rest ∨ visited.contains target = true ∨
        screening.clean.contains target = true) :
        target ∈ (targetsOf seen.slots).reverse ++ rest ∨
          (visited.insert object).contains target = true ∨
          screening.clean.contains target = true := by
      rcases earlier with listed | visited | clean
      · rcases List.mem_cons.mp listed with rfl | later
        · exact .inr (.inl contains_insert_self)
        · exact .inl (List.mem_append_right _ later)
      · exact .inr (.inl (contains_insert_of_contains object visited))
      · exact .inr (.inr clean)
    rcases asked with first | ⟨other, member, refers⟩
    · exact older (searching.pending target (.inl first))
    · rw [Std.TreeSet.contains_insert, Bool.or_eq_true] at member
      rcases member with same | before
      · rw [← Std.LawfulEqOrd.eq_of_compare (eq_of_beq same)] at refers
        obtain ⟨other, again, held⟩ := refers
        rw [found] at again
        cases again
        exact .inl (List.mem_append_left rest (List.mem_reverse.mpr (mem_targetsOf.mpr held)))
      · exact older (searching.pending target (.inr ⟨other, before, refers⟩))

/-- What a search that is over has not visited was clean before. -/
theorem finished (searching : screening.Searching live root [] visited)
    (coherent : screening.Coherent live) {object : ObjectId} (path : live.Reaches root object) :
    visited.contains object = true ∨ screening.clean.contains object = true := by
  induction path with
  | refl => exact (searching.pending root (.inl rfl)).resolve_left (nomatch ·)
  | tail _ edge ih =>
    rcases ih with before | clean
    · exact (searching.pending _ (.inr ⟨_, before, edge⟩)).resolve_left (nomatch ·)
    · exact .inr (coherent.clean _ _ clean edge)

end Searching

/-- A search ends at an object that is neither fit nor clean, or when everything is dealt with. -/
theorem explore_cases (closed : live.Closed) (coherent : screening.Coherent live)
    (inside : root.index < live.objects.size) {stack : List ObjectId}
    {visited : Std.TreeSet ObjectId} (searching : screening.Searching live root stack visited) :
    (∃ final, screening.explore live stack visited = .ok (.passed final) ∧
      screening.Searching live root [] final) ∨
    ∃ culprit, screening.explore live stack visited = .ok (.stopped culprit) ∧
      live.Reaches root culprit ∧ ¬ screening.Admissible live culprit ∧
      screening.clean.contains culprit = false := by
  fun_induction explore screening live stack visited with
  | case1 visited => exact .inl ⟨visited, rfl, searching⟩
  | case2 visited object rest tainted =>
    have unfit := coherent.tainted object tainted
    exact .inr ⟨object, rfl, searching.ahead object List.mem_cons_self, unfit.1, unfit.2⟩
  | case3 visited object rest _ clean ih => exact ih (searching.skip (.inr clean))
  | case4 visited object rest _ _ fresh here fit ih =>
    exact ih (searching.visit (Live.portrait?_eq_some here) fit)
  | case5 visited object rest _ dirty fresh here unfit =>
    refine .inr ⟨object, rfl, searching.ahead object List.mem_cons_self, ?_,
      Bool.eq_false_iff.mpr dirty⟩
    rintro ⟨seen, found, fit⟩
    rw [Live.portrait?_eq_some here] at found
    cases found
    exact unfit fit
  | case6 visited object rest _ _ fresh missing =>
    exact absurd (closed.reached inside (searching.ahead object List.mem_cons_self)) missing
  | case7 visited object rest _ _ old ih => exact ih (searching.skip (.inl (by simpa using old)))

/-- Everything that can be reached is fit, or was found clean before. -/
def Passes (screening : Screening) (live : Live) (root : ObjectId) : Prop :=
  ∀ object, live.Reaches root object →
    screening.clean.contains object = true ∨ screening.Admissible live object

theorem contains_foldl_insert (objects : List ObjectId) (clean : Std.TreeSet ObjectId)
    (object : ObjectId) : (objects.foldl (·.insert ·) clean).contains object = true ↔
      clean.contains object = true ∨ object ∈ objects := by
  induction objects generalizing clean with
  | nil => simp
  | cons head rest ih =>
    rw [List.foldl_cons, ih, Std.TreeSet.contains_insert, Bool.or_eq_true, List.mem_cons]
    have same : (compare head object == .eq) = true ↔ object = head := by
      rw [beq_iff_eq, Std.LawfulEqOrd.compare_eq_iff_eq]
      exact eq_comm
    rw [same, or_comm (a := object = head), or_assoc]

/-- What a check of an object's graph answers and leaves. -/
structure Checked (screening : Screening) (live : Live) (passes : Prop) (behind : ObjectId → Prop)
    (answer : Bool) (after : Screening) : Prop where
  answer : answer = true ↔ passes
  clean : ∀ object, after.clean.contains object = true ↔
    screening.clean.contains object = true ∨ behind object
  verdicts : after.verdicts = screening.verdicts
  excluded : after.excluded = screening.excluded
  coherent : after.Coherent live

theorem admissible_congr {other : Screening} (verdicts : other.verdicts = screening.verdicts)
    (excluded : other.excluded = screening.excluded) {object : ObjectId} :
    other.Admissible live object ↔ screening.Admissible live object := by
  simp only [Admissible, admits, verdict, verdicts, excluded]

private theorem Coherent.taint (coherent : screening.Coherent live) {culprit : ObjectId}
    (unfit : ¬ screening.Admissible live culprit)
    (dirty : screening.clean.contains culprit = false) :
    Coherent { screening with tainted := screening.tainted.insert culprit } live where
  clean := coherent.clean
  tainted object tainted := by
    rw [Std.TreeSet.contains_insert, Bool.or_eq_true] at tainted
    rcases tainted with same | before
    · rw [← Std.LawfulEqOrd.eq_of_compare (eq_of_beq same)]
      exact ⟨unfit, dirty⟩
    · exact coherent.tainted object before

private theorem Coherent.accept (coherent : screening.Coherent live) {after : Std.TreeSet ObjectId}
    (passes : screening.Passes live root)
    (clean : ∀ object, after.contains object = true ↔
      screening.clean.contains object = true ∨ live.Reaches root object) :
    Coherent { screening with clean := after } live where
  clean object target := by
    rw [clean, clean]
    rintro (old | path) edge
    · exact .inl (coherent.clean object target old edge)
    · exact .inr (path.tail edge)
  tainted object tainted := by
    have unfit := coherent.tainted object tainted
    refine ⟨unfit.1, Bool.eq_false_iff.mpr fun cleaned => ?_⟩
    have fits : screening.clean.contains object = true ∨ screening.Admissible live object := by
      rcases (clean object).mp cleaned with old | path
      · exact .inl old
      · exact passes object path
    rcases fits with old | fit
    · rw [unfit.2] at old
      cases old
    · exact unfit.1 fit

theorem checkObject_checked (closed : live.Closed) (coherent : screening.Coherent live)
    (inside : root.index < live.objects.size) :
    ∃ answer after, screening.checkObject live root = .ok (answer, after) ∧
      screening.Checked live (screening.Passes live root)
        (fun object => screening.Passes live root ∧ live.Reaches root object) answer after := by
  rcases explore_cases closed coherent inside (.start screening live root) with
    ⟨final, explored, searching⟩ | ⟨culprit, explored, path, unfit, dirty⟩
  · have passes : screening.Passes live root := by
      intro object path
      rcases searching.finished coherent path with visited | clean
      · exact .inr (searching.behind object visited).2
      · exact .inl clean
    have clean (object : ObjectId) :
        (final.foldl (·.insert ·) screening.clean).contains object = true ↔
          screening.clean.contains object = true ∨ live.Reaches root object := by
      rw [Std.TreeSet.foldl_eq_foldl_toList, contains_foldl_insert, Std.TreeSet.mem_toList]
      constructor
      · exact Or.imp_right fun visited => (searching.behind object visited).1
      · rintro (old | path)
        · exact .inl old
        · exact (searching.finished coherent path).symm
    refine ⟨true, { screening with clean := final.foldl (·.insert ·) screening.clean },
      by rw [checkObject, explored], ⟨by simp [passes], fun object => ?_, rfl, rfl,
      coherent.accept passes clean⟩⟩
    rw [clean]
    simp [passes]
  · have fails : ¬ screening.Passes live root := by
      intro passes
      rcases passes culprit path with clean | fit
      · rw [dirty] at clean
        cases clean
      · exact unfit fit
    exact ⟨false, { screening with tainted := screening.tainted.insert culprit },
      by rw [checkObject, explored],
      ⟨by simp [fails], by simp [fails], rfl, rfl, coherent.taint unfit dirty⟩⟩

end FrozenHeap.Screening
