import FrozenHeap.Proofs.Dump.Groups
import FrozenHeap.Proofs.Matching.Recordings

namespace FrozenHeap
namespace Matching

variable {left right : Live} (pairs : Matching left right)

/-- Dumps that have done the same with matched heaps. -/
structure Dumps (dump other : Dump) : Prop where
  live : dump.live = left
  partner : other.live = right
  bucketSize : dump.bucketSize = other.bucketSize
  screening : pairs.Screenings dump.screening other.screening
  nominations : List.Forall₂ pairs.Nominations dump.nominations.toList other.nominations.toList
  /-- What is still to be resolved is among the names. -/
  asked : dump.screened = false → ∀ nomination ∈ dump.nominations.toList,
    nomination.className ∈ pairs.names
  wholeNames : dump.wholeNames = other.wholeNames
  wholly : dump.screened = false → ∀ name ∈ dump.wholeNames.toList, name ∈ pairs.names
  wholes : List.Forall₂ (left.Peers right pairs.twin) dump.wholes other.wholes
  screened : dump.screened = other.screened
  recording : pairs.Recordings dump.recording other.recording

/-- Groups of the same nominations, for peers. -/
def Grouped (group other : ClassId × List Nat) : Prop :=
  left.Peers right pairs.twin group.1 other.1 ∧ group.2 = other.2

variable {pairs}

namespace Dumps

variable {dump other : Dump} {former latter : ClassId}

theorem start (pairs : Matching left right) (settings : Settings) :
    (∃ cause, Dump.start settings left = .error cause ∧
      Dump.start settings right = .error cause) ∨
    ∃ dump other, Dump.start settings left = .ok dump ∧ Dump.start settings right = .ok other ∧
      pairs.Dumps dump other := by
  unfold Dump.start
  cases Draft.start settings with
  | error cause => exact .inl ⟨cause, rfl, rfl⟩
  | ok draft =>
    refine .inr ⟨_, _, rfl, rfl, rfl, rfl, rfl, .start _, .nil, ?_, rfl, ?_, .nil, rfl, .start _ _⟩
    · exact fun _ _ member => absurd member List.not_mem_nil
    · exact fun _ _ member => absurd member List.not_mem_nil

theorem nominate (same : pairs.Dumps dump other) {className : String}
    (known : className ∈ pairs.names) (fieldName : String) (region : Region) :
    (dump.nominate className fieldName region).1 = (other.nominate className fieldName region).1 ∧
      pairs.Dumps (dump.nominate className fieldName region).2
        (other.nominate className fieldName region).2 := by
  have found := forall₂_find? same.nominations (p := fun nomination =>
    nomination.className == className && nomination.fieldName == fieldName)
    (q := fun nomination =>
      nomination.className == className && nomination.fieldName == fieldName)
    fun one two here => by rw [here.className, here.fieldName]
  rw [Array.find?_toList, Array.find?_toList] at found
  have taken : (dump.nomination? className fieldName).isSome =
      (other.nomination? className fieldName).isSome := isSome_eq_of_rel found
  unfold Dump.nominate
  rw [taken]
  split
  · exact ⟨rfl, same⟩
  · refine ⟨rfl, { same with nominations := ?_, asked := ?_ }⟩
    · simp only [Array.toList_push]
      exact List.rel_append same.nominations (.cons (.of ..) .nil)
    · intro unscreened nomination member
      simp only [Array.toList_push, List.mem_append, List.mem_singleton] at member
      rcases member with old | rfl
      · exact same.asked unscreened nomination old
      · exact known

theorem nominateWhole (same : pairs.Dumps dump other) {name : String} (known : name ∈ pairs.names) :
    (dump.nominateWhole name).1 = (other.nominateWhole name).1 ∧
      pairs.Dumps (dump.nominateWhole name).2 (other.nominateWhole name).2 := by
  unfold Dump.nominateWhole
  rw [← same.wholeNames]
  split
  · exact ⟨rfl, same⟩
  · refine ⟨rfl, { same with wholeNames := rfl, wholly := ?_ }⟩
    intro unscreened other member
    simp only [Array.toList_push, List.mem_append, List.mem_singleton] at member
    rcases member with old | rfl
    · exact same.wholly unscreened other old
    · exact known

/-- The screening of a dump comes to the same verdicts. -/
theorem screen (same : pairs.Dumps dump other) : Parallel pairs.Dumps dump.screen other.screen := by
  unfold Dump.screen
  rw [← same.screened]
  split
  · exact .ok same
  · rename_i unscreened
    replace unscreened := Bool.eq_false_iff.mpr unscreened
    obtain rfl := same.live
    obtain rfl := same.partner
    rw [← same.wholeNames]
    have wholes : List.Forall₂ (dump.live.Peers other.live pairs.twin)
        (dump.wholeNames.toList.filterMap dump.live.classNamed?)
        (dump.wholeNames.toList.filterMap other.live.classNamed?) := by
      refine List.rel_filterMap (R := fun one two => one = two ∧ one ∈ pairs.names) ?_
        (List.forall₂_same.mpr fun name member => ⟨rfl, same.wholly unscreened name member⟩)
      rintro name _ ⟨rfl, known⟩
      exact pairs.named name known
    refine (same.screening.checkClasses wholes).bind fun one two checked => ?_
    refine (checked.checkFields same.nominations (same.asked unscreened)).bind ?_
    rintro ⟨nominations, screening⟩ ⟨others, last⟩ ⟨judged, kept⟩
    exact .ok { same with
      screening := kept
      nominations := judged
      asked := fun impossible => by cases impossible
      wholeNames := rfl
      wholly := fun impossible => by cases impossible
      wholes := wholes
      screened := rfl }

theorem groupsOf (same : pairs.Dumps dump other) (region : Region) :
    List.Forall₂ pairs.Grouped (dump.groupsOf region) (other.groupsOf region) := by
  have unique := Live.peers_biUnique left right pairs.twin
  have listed : List.Forall₂
      (fun one two => left.Peers right pairs.twin one.1 two.1 ∧ one.2 = two.2)
      (dump.listed region) (other.listed region) := by
    refine List.rel_filterMap ?_ (forall₂_zipIdx same.nominations 0)
    rintro ⟨nomination, index⟩ ⟨fellow, _⟩ ⟨here, rfl⟩
    have resolved := here.resolved
    simp only
    generalize nomination.resolved = one at resolved ⊢
    generalize fellow.resolved = two at resolved ⊢
    cases resolved with
    | none => exact .none
    | @some one two fields =>
      have fits : (nomination.region = region ∧ one.1 ∉ dump.wholes) ↔
          fellow.region = region ∧ two.1 ∉ other.wholes := by
        have known : one.1 ∈ dump.wholes ↔ two.1 ∈ other.wholes :=
          List.rel_mem unique fields.1 same.wholes
        rw [← here.region, known]
      by_cases grants : fellow.region = region ∧ two.1 ∉ other.wholes
      · simp only [if_pos (fits.mpr grants), if_pos grants]
        exact .some ⟨fields.1, rfl⟩
      · simp only [if_neg (mt fits.mp grants), if_neg grants]
        exact .none
  rw [Dump.groupsOf_eq, Dump.groupsOf_eq]
  refine List.rel_map (R := left.Peers right pairs.twin) (fun one two peers => ⟨peers, ?_⟩)
    (forall₂_eraseDups unique (List.rel_map (fun _ _ here => here.1) listed))
  exact map_eq_of_forall₂ (List.rel_filter (fun former latter here => by
    simp only [beq_eq_of_biUnique unique here.1 peers]) listed) fun _ _ here => here.2

theorem record (same : pairs.Dumps dump other) {recording another : Recording}
    (recordings : pairs.Recordings recording another) :
    pairs.Dumps { dump with recording := recording } { other with recording := another } :=
  { same with recording := recordings }

theorem startRound (same : pairs.Dumps dump other)
    (peers : left.Peers right pairs.twin former latter) (isPartial : Bool) :
    Parallel pairs.Dumps (dump.startRound former isPartial)
      (other.startRound latter isPartial) := by
  obtain rfl := same.live
  obtain rfl := same.partner
  exact (same.recording.startRound peers.kin isPartial).bind fun _ _ started =>
    .ok (same.record started)

theorem endRound (same : pairs.Dumps dump other) :
    Parallel (fun former latter => pairs.Dumps former.2 latter.2) dump.endRound other.endRound :=
  same.recording.endRound.bind fun _ _ ended => .ok (same.record ended.2)

theorem count (same : pairs.Dumps dump other) (change : Totals → Totals) :
    pairs.Dumps (dump.count change) (other.count change) :=
  { same with
    recording := { same.recording with totals := congrArg change same.recording.totals } }

theorem archive (same : pairs.Dumps dump other) (index : Nat) :
    Parallel (fun former latter => pairs.Dumps former.2 latter.2) (dump.archive index)
      (other.archive index) := by
  have found := forall₂_getElem? same.nominations index
  rw [Array.getElem?_toList, Array.getElem?_toList] at found
  obtain rfl := same.live
  obtain rfl := same.partner
  unfold Dump.archive
  generalize dump.nominations[index]? = one at found ⊢
  generalize other.nominations[index]? = two at found ⊢
  cases found with
  | none => exact .ok same
  | some nominations =>
    simp only [nominations.isPreservable]
    split
    · refine (same.recording.archiveNomination same.screening nominations).bind ?_
      rintro ⟨_, later⟩ ⟨_, last⟩ ⟨_ | @⟨entry, _, rfl⟩, kept⟩
      · exact .ok ((same.record kept).count (·.addSkipped 1))
      · exact .ok ((same.record kept).count (·.addArchived))
    · exact .ok (same.count (·.addSkipped 1))

theorem archiveGroup (same : pairs.Dumps dump other) {group fellow : ClassId × List Nat}
    (grouped : pairs.Grouped group fellow) :
    Parallel pairs.Dumps (dump.archiveGroup group) (other.archiveGroup fellow) := by
  unfold Dump.archiveGroup
  refine (same.startRound grouped.1 true).bind fun one two started => ?_
  rw [← grouped.2]
  refine Parallel.bind (R := pairs.Dumps) ?_ fun one two done =>
    done.endRound.bind fun _ _ ended => .ok ended
  refine Parallel.foldlM (S := Eq) ?_ (List.forall₂_same.mpr fun _ _ => rfl) started
  rintro one two index _ now rfl
  exact (now.archive index).bind fun _ _ archived => .ok archived

theorem archiveStatic (same : pairs.Dumps dump other)
    (peers : left.Peers right pairs.twin former latter) (field : StaticField) :
    Parallel pairs.Dumps (dump.archiveStatic former field) (other.archiveStatic latter field) := by
  obtain rfl := same.live
  obtain rfl := same.partner
  refine (same.recording.archiveStatic same.screening peers field.offset .opened).bind ?_
  rintro ⟨_, later⟩ ⟨_, last⟩ ⟨_ | @⟨entry, _, rfl⟩, kept⟩
  · exact .ok ((same.record kept.markPartial).count (·.addSkipped 1))
  · exact .ok ((same.record kept).count (·.addArchived))

theorem archiveWhole (same : pairs.Dumps dump other)
    (peers : left.Peers right pairs.twin former latter) :
    Parallel pairs.Dumps (dump.archiveWhole former) (other.archiveWhole latter) := by
  obtain ⟨shape, first, second⟩ := peers.kin.shapeOf
  unfold Dump.archiveWhole Dump.isPreservableClass
  rw [same.live, same.partner, first, second, same.screening.verdicts _ _ peers.kin]
  refine Parallel.bind .refl ?_
  rintro shape _ rfl
  split
  · refine (same.startRound peers false).bind fun one two started => ?_
    refine Parallel.bind (R := pairs.Dumps) ?_ fun one two done =>
      done.endRound.bind fun _ _ ended => .ok ended
    refine Parallel.foldlM (S := Eq) ?_ (List.forall₂_same.mpr fun _ _ => rfl) started
    rintro one two field _ now rfl
    exact now.archiveStatic peers field
  · exact .ok (same.count _)

theorem archiveAll (same : pairs.Dumps dump other) :
    Parallel pairs.Dumps dump.archiveAll other.archiveAll := by
  refine same.screen.bind fun one two screened => ?_
  refine Parallel.bind (R := pairs.Dumps) ?_ fun last final grouped => ?_
  · refine Parallel.foldlM (fun _ _ _ _ now here => now.archiveGroup here) ?_ screened
    exact List.rel_flatMap (List.forall₂_same.mpr fun _ _ => rfl) fun region _ same => by
      cases same
      exact screened.groupsOf region
  · exact Parallel.foldlM (fun _ _ _ _ now here => now.archiveWhole here) grouped.wholes grouped

private theorem rosterOf_eq {ledger fellow : Ledger} (alike : ledger.Alike left right fellow) :
    Dump.rosterOf ledger = Dump.rosterOf fellow := by
  refine Parallel.eq (Parallel.foldlM (S := Page.Alike left right) ?_ ?_ rfl)
  · rintro roster _ page other rfl pages
    rw [pages.name, pages.toRecord]
    exact .refl
  · refine List.rel_filter (fun page other pages => ?_) alike
    have classes : page.classes.size = other.classes.size := by
      simpa using pages.classes.length_eq
    simp only [Array.isEmpty, pages.entries, classes]

theorem finish (same : pairs.Dumps dump other) : dump.finish = other.finish := by
  have idle : dump.recording.current.isNone = other.recording.current.isNone := by
    rw [← Option.not_isSome, ← Option.not_isSome, isSome_eq_of_rel same.recording.current]
  unfold Dump.finish Recording.finish
  rw [idle]
  cases ensure (other.recording.current.isNone = true) with
  | error breach => simp only [bind, Except.bind]
  | ok _ =>
    simp only [bind, Except.bind, pure, Except.pure, rosterOf_eq same.recording.ledger,
      same.recording.draft, same.recording.totals, same.bucketSize]

end Dumps
end Matching
end FrozenHeap
