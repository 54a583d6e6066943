import FrozenHeap.Proofs.Matching.Ledgers
import FrozenHeap.Proofs.Matching.Lockstep

namespace FrozenHeap
namespace Matching

variable {left right : Live} (pairs : Matching left right)

/-- Rounds for kin, which saw twins. -/
structure Rounds (round other : Round) : Prop where
  roots : left.Kin right round.root other.root
  seen : pairs.Sets round.seen.contains other.seen.contains
  tally : round.tally = other.tally

/-- Recordings that have made the same images and pages, and know the same of twins. -/
structure Recordings (recording other : Recording) : Prop where
  draft : recording.draft = other.draft
  copies : pairs.Tables (recording.copies[·]?) (other.copies[·]?)
  ledger : recording.ledger.Alike left right other.ledger
  current : Option.Rel pairs.Rounds recording.current other.current
  totals : recording.totals = other.totals
  verifies : recording.verifies = other.verifies

/-- Two calls gave the same value, or failed both. -/
def Replies (former latter : Outcome α × Recording) : Prop :=
  Answered Eq former.1 latter.1 ∧ pairs.Recordings former.2 latter.2

variable {pairs}

namespace Recordings

variable {recording other : Recording} {round another : Round} {walk second : Walk}
  {screening screened : Screening} {one two : ObjectId} {former latter : ClassId}

theorem start (draft : Draft) (verifies : Bool) :
    pairs.Recordings (.start draft verifies) (.start draft verifies) :=
  ⟨rfl, fun _ _ _ => by simp [Recording.start], .nil, .none, rfl, rfl⟩

theorem startRound (same : pairs.Recordings recording other) (kin : left.Kin right former latter)
    (isPartial : Bool) :
    Parallel pairs.Recordings (recording.startRound left former isPartial)
      (other.startRound right latter isPartial) := by
  obtain ⟨shape, first, second⟩ := kin.shapeOf
  have idle : recording.current.isNone = other.current.isNone := by
    rw [← Option.not_isSome, ← Option.not_isSome, isSome_eq_of_rel same.current]
  unfold Recording.startRound
  rw [idle, first, second]
  refine Parallel.bind .refl fun _ _ _ => Parallel.bind .refl ?_
  rintro shape _ rfl
  refine .ok { same with
    ledger := ?_
    current := .some ⟨kin, fun _ _ _ => by simp, rfl⟩ }
  have entered := same.ledger.enter kin shape.name isPartial
  cases isPartial with
  | true => exact entered.markPartial kin
  | false => exact entered

theorem endRound (same : pairs.Recordings recording other) :
    Agree pairs.Recordings recording.endRound other.endRound := by
  have rounds := same.current
  unfold Recording.endRound
  rw [same.totals]
  generalize recording.current = one at rounds ⊢
  generalize other.current = two at rounds ⊢
  cases rounds with
  | none => exact .broken
  | some here =>
    simp only [here.tally]
    split
    · exact .broken
    · exact .ok ⟨rfl, { same with current := .none, totals := rfl }⟩

theorem markPartial (same : pairs.Recordings recording other) :
    pairs.Recordings recording.markPartial other.markPartial := by
  have rounds := same.current
  unfold Recording.markPartial
  split
  · rename_i round found
    rw [found] at rounds
    split
    · rename_i found
      rw [found] at rounds
      cases rounds with
      | some here => exact { same with ledger := same.ledger.markPartial here.roots }
    · rename_i absent
      rw [absent] at rounds
      cases rounds
  · rename_i absent
    rw [absent] at rounds
    split
    · rename_i found
      rw [found] at rounds
      cases rounds
    · exact same

theorem enter (same : pairs.Recordings recording other) (rounds : pairs.Rounds round another)
    (entry : Entry) :
    Parallel pairs.Replies (recording.enter round entry) (other.enter another entry) := by
  refine (same.ledger.addEntry rounds.roots entry).bind fun _ _ ledgers => ?_
  exact .ok ⟨.ok rfl, { same with ledger := ledgers }⟩

/-- Walks that are given up leave nothing but what the walks before them left. -/
theorem abandon (same : pairs.Recordings recording other) (rounds : pairs.Rounds round another)
    (walks : pairs.Walks walk second) :
    pairs.Recordings (recording.abandon round walk) (other.abandon another second) where
  draft := by simp only [Recording.abandon, walks.draft, same.draft]
  copies := by
    simp only [Recording.abandon, ← Array.foldl_toList]
    exact List.rel_foldl (R := pairs.twin)
      (P := fun (copies others : Copies) => pairs.Tables (copies[·]?) (others[·]?))
      (fun _ _ tables _ _ twins => tables.erase twins) walks.copies walks.copied
  ledger := same.ledger
  current := by
    refine .some ⟨rounds.roots, ?_, ?_⟩
    · simp only [← Array.foldl_toList]
      refine List.rel_foldl (R := pairs.twin)
        (P := fun (seen others : Seen) => pairs.Sets seen.contains others.contains)
          (fun _ _ sets one two twins last final here => ?_) walks.seen walks.met
      simp only [Std.ExtTreeSet.contains_erase, bne, compare_eq twins here, sets last final here]
    · simp only [rounds.tally, walks.walked]
  totals := same.totals
  verifies := same.verifies

theorem adopt (same : pairs.Recordings recording other) (rounds : pairs.Rounds round another)
    (walks : pairs.Walks walk second) (draft : Draft) :
    pairs.Recordings (recording.adopt round walk draft) (other.adopt another second draft) := by
  have ledgers := same.ledger.addClasses rounds.roots walks.classes
  have copied : walk.copied.size = second.copied.size := by simpa using walks.copied.length_eq
  refine { same with
    draft := rfl
    copies := walks.copies
    ledger := ledgers
    current := .some ⟨rounds.roots, walks.seen, ?_⟩ }
  simp only [walks.walked, rounds.tally, copied, ledgers.classCount rounds.roots,
    same.ledger.classCount rounds.roots]

theorem copyGraph (same : pairs.Recordings recording other) (rounds : pairs.Rounds round another)
    (screenings : pairs.Screenings screening screened) (twins : pairs.twin one two)
    (region : Region) :
    Parallel pairs.Replies (recording.copyGraph round left screening one region)
      (other.copyGraph another right screened two region) := by
  have started : pairs.Walks
      (Walk.start recording.draft recording.copies round.seen round.tally.walked)
      (Walk.start other.draft other.copies another.seen another.tally.walked) :=
    ⟨same.draft, same.copies, rounds.seen, congrArg (·.walked) rounds.tally, .nil, .nil, .nil, .nil⟩
  have advanced := (Walks.simulation screenings region).advance started (.cons twins .nil)
  simp only [Recording.copyGraph]
  generalize Walk.advance left screening region [one] _ = first at advanced ⊢
  generalize Walk.advance right screened region [two] _ = second at advanced ⊢
  cases advanced with
  | broken => exact .broken
  | @ok former latter walked =>
    obtain ⟨outcome, walk⟩ := former
    obtain ⟨_, last⟩ := latter
    obtain ⟨rfl, walks⟩ := walked
    cases outcome with
    | error failure => exact .ok ⟨.refused, same.abandon rounds walks⟩
    | ok _ =>
      refine Parallel.bind (R := pairs.Recordings) ?_ fun kept later done => ?_
      · unfold Recording.keep
        rw [walks.draft, Walks.patchLinks_eq walks.copies walks.links]
        refine Parallel.bind .refl ?_
        rintro draft _ rfl
        exact .ok (same.adopt rounds walks draft)
      · simp only [show kept.copies[one]? = later.copies[two]? from done.copies one two twins]
        split
        · exact .ok ⟨.ok rfl, done⟩
        · exact .broken

theorem compare (same : pairs.Recordings recording other) (twins : pairs.twin one two)
    (place : Place) :
    Parallel (Answered pairs.Recordings) (recording.compare left one place)
      (other.compare right two place) := by
  unfold Recording.compare
  rw [same.verifies]
  split
  · have verified := verify_alike other.draft twins place
    rw [same.draft]
    generalize other.draft.verify left one place = first at verified ⊢
    generalize other.draft.verify right two place = second at verified ⊢
    cases verified with
    | broken => exact .broken
    | ok outcome =>
      cases outcome with
      | refused => exact .ok .refused
      | ok _ =>
        exact .ok (.ok { same with
          draft := rfl
          totals := congrArg Totals.addVerification same.totals
          verifies := rfl })
  · exact .ok (.ok same)

theorem archiveObject (same : pairs.Recordings recording other)
    (rounds : pairs.Rounds round another)
    (screenings : pairs.Screenings screening screened) (twins : pairs.twin one two)
    (offset : UInt32) (region : Region) :
    Parallel pairs.Replies (recording.archiveObject round left screening one offset region)
      (other.archiveObject another right screened two offset region) := by
  refine (same.copyGraph rounds screenings twins region).bind ?_
  rintro ⟨_, later⟩ ⟨_, last⟩ ⟨_ | @⟨place, _, rfl⟩, kept⟩
  · exact .ok ⟨.refused, kept⟩
  · refine (kept.compare twins place).bind ?_
    rintro _ _ (_ | @⟨compared, final, agreed⟩)
    · exact .ok ⟨.refused, kept⟩
    · simp only [agreed.draft]
      refine Parallel.bind .refl ?_
      rintro narrow _ rfl
      exact agreed.enter rounds _

theorem archiveStatic (same : pairs.Recordings recording other)
    (screenings : pairs.Screenings screening screened)
    (peers : left.Peers right pairs.twin former latter) (offset : UInt32) (region : Region) :
    Parallel pairs.Replies (recording.archiveStatic left screening former offset region)
      (other.archiveStatic right screened latter offset region) := by
  obtain ⟨shape, first, second⟩ := peers.kin.shapeOf
  have current := same.current
  have values := peers.static? offset
  unfold Recording.archiveStatic
  generalize recording.current = one at current ⊢
  generalize other.current = two at current ⊢
  cases current with
  | none => exact .broken
  | some rounds =>
    rw [first, second]
    refine Parallel.bind .refl ?_
    rintro shape _ rfl
    generalize left.static? former offset = value at values ⊢
    generalize right.static? latter offset = slot at values ⊢
    cases values with
    | none => exact .ok ⟨.refused, same⟩
    | some alike =>
      cases alike with
      | bits => exact same.enter rounds _
      | null => exact same.enter rounds _
      | ref twins => exact same.archiveObject rounds screenings twins offset region

theorem archiveNomination (same : pairs.Recordings recording other)
    (screenings : pairs.Screenings screening screened) {nomination fellow : Nomination}
    (nominations : pairs.Nominations nomination fellow) :
    Parallel pairs.Replies (recording.archiveNomination left screening nomination)
      (other.archiveNomination right screened fellow) := by
  have resolved := nominations.resolved
  unfold Recording.archiveNomination
  rw [nominations.region]
  generalize nomination.resolved = one at resolved ⊢
  generalize fellow.resolved = two at resolved ⊢
  cases resolved with
  | none => exact .ok ⟨.refused, same⟩
  | @some field latter fields =>
    obtain ⟨ofClass, offset⟩ := field
    obtain ⟨peer, _⟩ := latter
    obtain ⟨peers, rfl⟩ := fields
    exact same.archiveStatic screenings peers offset _

end Recordings
end Matching
end FrozenHeap
