import FrozenHeap.Proofs.Draft.Trails

/-! Going back to a mark. Whatever happened since the mark was taken, the images become what they
were; only class names that were first seen since are left, and whatever is done next differs in
nothing but the numbers of these. -/

namespace FrozenHeap

/-- Two trails that have handed out the same, but for the positions of names that were not known. -/
structure Trail.Alike (known : Array String) (left right : Trail) : Prop where
  draft : left.draft.Alike known right.draft
  outcomes : left.outcomes = right.outcomes
  positions : List.Forall₂ (fun one two => one.2 = two.2 ∧ (one.2 ∈ known → one.1 = two.1))
    left.positions right.positions
  marks : left.marks = right.marks

namespace Trail

variable {known : Array String} {left right : Trail}

namespace Alike

theorem edit (alike : left.Alike known right) (change : Edit) :
    Parallel (Alike known) (left.edit change) (right.edit change) := by
  cases change with
  | allocate region name slots =>
    refine (alike.draft.allocate region name slots).bind fun one two ⟨same, after⟩ => .ok ?_
    exact { alike with draft := after, outcomes := by rw [same, alike.outcomes] }
  | patch holder slot target =>
    refine (alike.draft.patch holder slot target).bind fun one two after => .ok ?_
    exact { alike with draft := after }
  | name name =>
    refine .ok { alike with draft := alike.draft.nameIndex name, positions := ?_ }
    exact .cons ⟨rfl, alike.draft.position_eq⟩ alike.positions
  | mark => exact .ok { alike with marks := by rw [alike.draft.mark_eq, alike.marks] }
  | rollback mark => exact .ok { alike with draft := alike.draft.rollback mark }

theorem edits (alike : left.Alike known right) (list : List Edit) :
    Parallel (Alike known) (left.edits list) (right.edits list) := by
  refine Parallel.foldlM (S := Eq) (fun former latter one two alike same => ?_)
    (List.forall₂_same.mpr fun _ _ => rfl) alike
  subst same
  exact alike.edit one

end Alike

/-- What going back from the end of a trail to its start leaves. The trail started with the draft
that an earlier trail had come to. -/
structure Restores (earlier trail : Trail) (back : Draft) : Prop where
  image : ∀ region, back.image region = earlier.draft.image region
  draft : back = { earlier.draft with names := trail.draft.names }
  names : earlier.draft.names.toList <+: back.names.toList
  /-- Positions that were handed out, before or since, name what they named, and are found again. -/
  positions : ∀ position name, (position, name) ∈ earlier.positions ++ trail.positions →
    back.names[position]? = some name ∧ back.nameIndex name = (position, back)
  /-- Whatever is done next, the outcomes, places and images are those that the earlier draft leads
  to, but for the numbers of names that it did not know. -/
  again : ∀ list, Parallel (Alike earlier.draft.names) ((start back).edits list)
    ((start earlier.draft).edits list)

/-- Whatever a draft was used for before a mark is taken, and whatever is laid out, named, marked
and cut back since, and patched of what is laid out since, going back to the mark restores the draft
but for class names, and no more is to be seen of it than how these are numbered. -/
theorem restores_of_follows {settings : Settings} {first : Draft} {before since : List Edit}
    {earlier trail : Trail} (started : Draft.start settings = .ok first)
    (reached : (start first).edits before = .ok earlier)
    (followed : (start earlier.draft).follows since = .ok trail) :
    earlier.Restores trail (trail.draft.rollback earlier.draft.mark) := by
  have marked := (sound_start (Draft.covered_start started)).edits reached
  obtain ⟨sound, behind⟩ := Behind.follows marked.covered followed
  have draft := behind.grown.rollback marked.covered sound.covered
  have longer := behind.grown.names
  -- From here on the draft is the earlier one with more names.
  rw [draft]
  refine ⟨fun region => by cases region <;> rfl, rfl, longer, fun position name listed => ?_,
    fun list => ?_⟩
  · have found : trail.draft.names.findIdx? (· == name) = some position := by
      rcases List.mem_append.mp listed with old | new
      · exact Draft.findIdx?_of_longer longer (marked.found position name old)
      · exact sound.found position name new
    obtain ⟨inside, here, _⟩ := Array.findIdx?_eq_some_iff_getElem.mp found
    exact ⟨Array.getElem?_eq_some_iff.mpr ⟨inside, beq_iff_eq.mp here⟩, Draft.nameIndex_eq found⟩
  · have alike : Alike earlier.draft.names
        (start { earlier.draft with names := trail.draft.names }) (start earlier.draft) :=
      ⟨(Draft.Alike.refl _ List.prefix_rfl).rename longer List.prefix_rfl, rfl, .nil, rfl⟩
    exact alike.edits list

def narrowSettings : Settings := { capacity := 80 }

def keptEdits : List Edit :=
  [.allocate .closed "Keep" #[.ref ⟨0⟩, .bits 7], .name "Other",
    .patch ⟨.closed, 0x700000008⟩ 0 (some ⟨.closed, 0x700000008⟩)]

/-- Objects in both regions, one of which refers to the other, one that finds no room, and one that
is laid out behind a mark and dropped again. -/
def droppedEdits : List Edit :=
  [.allocate .closed "Drop" #[.null, .bits 1], .allocate .opened "Drop" #[.null], .mark,
    .allocate .opened "Long" (.replicate 8 .null), .allocate .opened "More" #[.null],
    .patch ⟨.closed, 0x700000020⟩ 0 (some ⟨.opened, 0x700000050⟩), .rollback ⟨7, 2⟩,
    .name "Other", .name "Last"]

theorem restores_of_follows_dropped : ∃ first earlier trail,
    Draft.start narrowSettings = .ok first ∧ (start first).edits keptEdits = .ok earlier ∧
      (start earlier.draft).follows droppedEdits = .ok trail ∧
      trail.draft.names = #["Keep", "Other", "Drop", "More", "Last"] ∧
      trail.draft.mark = ⟨7, 2⟩ ∧ earlier.draft.mark = ⟨4, 0⟩ ∧
      earlier.Restores trail (trail.draft.rollback earlier.draft.mark) := by
  obtain ⟨first, started⟩ : ∃ first, Draft.start narrowSettings = .ok first := ⟨_, rfl⟩
  have ran : ((start first).edits keptEdits).toOption.any (fun earlier =>
      decide (earlier.draft.mark = ⟨4, 0⟩) &&
        ((start earlier.draft).follows droppedEdits).toOption.any fun trail =>
          decide (trail.draft.names = #["Keep", "Other", "Drop", "More", "Last"] ∧
            trail.draft.mark = ⟨7, 2⟩)) = true := by
    cases started
    decide +kernel
  obtain ⟨earlier, reached, ran⟩ := any_toOption_iff.mp ran
  rw [Bool.and_eq_true, decide_eq_true_eq] at ran
  obtain ⟨trail, followed, seen⟩ := any_toOption_iff.mp ran.2
  rw [decide_eq_true_eq] at seen
  exact ⟨first, earlier, trail, started, reached, followed, seen.1, seen.2, ran.1,
    restores_of_follows started reached followed⟩

end Trail
end FrozenHeap
