import FrozenHeap.Proofs.Draft.Twins
import FrozenHeap.Proofs.Recording.Intact
import FrozenHeap.Proofs.Recording.Simulation

namespace FrozenHeap

/-- Some object has its copy at this place. -/
def Place.Taken (copies : Copies) (place : Place) : Prop :=
  ∃ object : ObjectId, copies[object]? = some place

namespace Draft

variable {draft : Draft} {live : Live} {object : ObjectId} {place : Place} {rest : List Pairing}
  {paired : Std.TreeMap ObjectId Place}

/-- Comparing goes on behind an object that was paired with the same copy before. -/
theorem lockstep_met (inside : object.index < live.objects.size) {other : Place}
    (found : paired[object]? = some other) :
    draft.lockstep live ((object, place) :: rest) paired =
      if other = place then draft.lockstep live rest paired
      else .ok (.error (.verificationFailed object (live.shapeAt _ inside).name .sharedTwice)) := by
  rw [lockstep]
  simp only [dif_pos inside]
  split
  · rename_i again there
    rw [found] at there
    cases there
    rfl
  · rename_i absent
    rw [found] at absent
    cases absent

/-- Comparing goes on with the references of an object that was not paired before. -/
theorem lockstep_fresh (inside : object.index < live.objects.size)
    (fresh : paired[object]? = none) :
    draft.lockstep live ((object, place) :: rest) paired =
      match draft.compareObject (live.shapeAt _ inside) live.objects[object.index].slots place with
      | .error breach => .error breach
      | .ok (.error mismatch) =>
        .ok (.error (.verificationFailed object (live.shapeAt _ inside).name mismatch))
      | .ok (.ok next) => draft.lockstep live (next.reverse ++ rest)
          (paired.insert object place) := by
  rw [lockstep]
  simp only [dif_pos inside]
  split
  · rename_i other found
    rw [fresh] at found
    cases found
  · split <;> rename_i compared <;> rw [compared]

end Draft

namespace Draft.Twins

variable {known : List String} {copies : Copies} {left right : Draft}

theorem compareSlot (twins : Twins known copies left right) {cell : Cell}
    (leads : cell.Leads right.narrowing copies) (slot : Slot) :
    left.compareSlot slot cell = right.compareSlot slot cell ∧
      ∀ pairing, right.compareSlot slot cell = .ok (.ok (some pairing)) →
        pairing.2.Taken copies := by
  refine ⟨by cases slot <;> simp only [Draft.compareSlot, twins.resolve?_eq], ?_⟩
  intro pairing done
  cases slot with
  | bits word =>
    simp only [Draft.compareSlot] at done
    split at done <;> cases done
  | null =>
    simp only [Draft.compareSlot] at done
    split at done <;> cases done
  | ref target =>
    simp only [Draft.compareSlot] at done
    split at done
    · rename_i reference
      split at done
      · split at done
        · cases done
        · rename_i found resolved
          cases done
          rcases leads reference with null | ⟨object, place, narrow, cached, narrowed, word⟩
          · rw [null] at resolved
            cases resolved
          · rw [word, UInt32.toUInt32_toUInt64] at resolved
            exact ⟨object, twins.resolve?_place cached narrowed resolved ▸ cached⟩
        · cases done
      · cases done
    · cases done

theorem compareSlots (twins : Twins known copies left right) (slots : List Slot)
    {cells : List Cell} (leads : ∀ cell ∈ cells, cell.Leads right.narrowing copies) :
    left.compareSlots slots cells = right.compareSlots slots cells ∧
      ∀ next, right.compareSlots slots cells = .ok (.ok next) →
        ∀ pairing ∈ next, pairing.2.Taken copies := by
  induction slots generalizing cells with
  | nil =>
    refine ⟨rfl, fun next done pairing member => ?_⟩
    cases done
    cases member
  | cons slot slots ih =>
    cases cells with
    | nil =>
      refine ⟨rfl, fun next done pairing member => ?_⟩
      cases done
      cases member
    | cons cell cells =>
      obtain ⟨first, taken⟩ := twins.compareSlot (leads cell List.mem_cons_self) slot
      obtain ⟨rest, others⟩ := ih fun other member => leads other (List.mem_cons_of_mem _ member)
      refine ⟨by simp only [Draft.compareSlots, first, rest], fun next done => ?_⟩
      simp only [Draft.compareSlots] at done
      split at done
      · cases done
      · cases done
      · rename_i here compared
        split at done
        · cases done
        · cases done
        · rename_i behind remaining
          cases done
          intro pairing member
          rcases List.mem_append.mp member with now | later
          · rw [Option.mem_toList.mp now] at compared
            exact taken pairing compared
          · exact others behind remaining pairing later

/-- Comparing an object with a copy has the same result in both twins, and leads to copies. -/
theorem compareObject (twins : Twins known copies left right) (few : known.length ≤ UInt32.size)
    {place : Place} (here : place.Taken copies) (shape : ClassShape) (slots : Array Slot) :
    left.compareObject shape slots place = right.compareObject shape slots place ∧
      ∀ next, right.compareObject shape slots place = .ok (.ok next) →
        ∀ pairing ∈ next, pairing.2.Taken copies := by
  obtain ⟨object, cached⟩ := here
  obtain ⟨same, leads⟩ := twins.copyAt?_eq few cached
  unfold Draft.compareObject
  rw [same]
  split
  · exact ⟨rfl, fun next done => by cases done⟩
  · exact ⟨rfl, fun next done => by cases done⟩
  · rename_i copy read
    split
    · exact ⟨rfl, fun next done => by cases done⟩
    · split
      · exact ⟨rfl, fun next done => by cases done⟩
      · exact twins.compareSlots _ fun cell member =>
          leads copy read cell (Array.mem_toList_iff.mp member)

theorem lockstep (twins : Twins known copies left right) (few : known.length ≤ UInt32.size)
    (live : Live) (stack : List Pairing) (paired : Std.TreeMap ObjectId Place)
    (taken : ∀ pairing ∈ stack, pairing.2.Taken copies) :
    left.lockstep live stack paired = right.lockstep live stack paired := by
  fun_induction Draft.lockstep right live stack paired with
  | case1 => rw [Draft.lockstep]
  | case2 paired object rest inside other found ih =>
    rw [lockstep_met inside found, if_pos rfl]
    exact ih fun pairing member => taken pairing (List.mem_cons_of_mem _ member)
  | case3 paired object place rest inside _ other found different =>
    rw [lockstep_met inside found, if_neg different]
  | case4 paired object place rest inside _ fresh breach broken =>
    have same := (twins.compareObject few (taken _ List.mem_cons_self) _ _).1.trans broken
    rw [lockstep_fresh inside fresh, same]
  | case5 paired object place rest inside _ fresh mismatch differs =>
    have same := (twins.compareObject few (taken _ List.mem_cons_self) _ _).1.trans differs
    rw [lockstep_fresh inside fresh, same]
  | case6 paired object place rest inside _ fresh next compared ih =>
    obtain ⟨same, leads⟩ := twins.compareObject few (taken _ List.mem_cons_self)
      (live.shapeAt _ inside) live.objects[object.index].slots
    rw [lockstep_fresh inside fresh, same.trans compared]
    refine ih fun pairing member => ?_
    rcases List.mem_append.mp member with now | behind
    · exact leads next compared pairing (List.mem_reverse.mp now)
    · exact taken pairing (List.mem_cons_of_mem _ behind)
  | case7 paired object place rest missing =>
    rw [Draft.lockstep, dif_neg missing]

/-- Verifying a copy has the same outcome in both twins. -/
theorem verify (twins : Twins known copies left right) (few : known.length ≤ UInt32.size)
    (live : Live) (root : ObjectId) {place : Place} (here : place.Taken copies) :
    left.verify live root place = right.verify live root place := by
  refine twins.lockstep few live _ _ fun pairing member => ?_
  rw [List.mem_singleton.mp member]
  exact here

end Draft.Twins

/-- Walks over twin drafts that have done the same. -/
structure Walk.Twins (known : List String) (left right : Walk) : Prop where
  drafts : Draft.Twins known right.copies left.draft right.draft
  copies : left.copies = right.copies
  seen : left.seen = right.seen
  copied : left.copied = right.copied
  met : left.met = right.met
  classes : left.classes = right.classes
  links : left.links = right.links
  walked : right.walked ≤ left.walked

namespace Walk.Twins

variable {known : List String} {left right : Walk} {live : Live} {screening : Screening}
  {region : Region}

theorem meet (twins : Twins known left right) (object : ObjectId) :
    Twins known (left.meet object) (right.meet object) :=
  { twins with
    seen := congrArg (·.insert object) twins.seen
    met := congrArg (·.push object) twins.met
    walked := Nat.succ_le_succ twins.walked }

theorem list (twins : Twins known left right) (listed : ClassId × String) :
    Twins known (left.list listed) (right.list listed) :=
  { twins with classes := congrArg (·.push listed) twins.classes }

theorem copy (twins : Twins known left right) {object : ObjectId} {place : Place}
    {leftAfter rightAfter : Draft} (slots : Array Slot)
    (drafts : Draft.Twins known (right.copies.insert object place) leftAfter rightAfter) :
    Twins known (left.copy leftAfter object place slots)
      (right.copy rightAfter object place slots) where
  drafts := drafts
  copies := congrArg (·.insert object place) twins.copies
  seen := twins.seen
  copied := congrArg (·.push object) twins.copied
  met := twins.met
  classes := twins.classes
  links := congrArg (fun links : Array Link => links ++ linksOf place slots) twins.links
  walked := twins.walked

theorem simulation (familiar : ∀ name ∈ live.classNames, name ∈ known) (screening : Screening)
    (region : Region) : Simulation live live screening screening region Eq (Twins known) where
  portraits {one _} same := by
    subst same
    cases live.portrait? one with
    | none => exact .none
    | some seen => exact .some ⟨rfl, rfl, List.forall₂_same.mpr fun _ _ => rfl⟩
  copies twins same := by rw [twins.copies, same]
  seen twins same := by rw [twins.seen, same]
  meet twins same := by
    subst same
    exact twins.meet _
  list twins same found there := by
    subst same
    cases found.symm.trans there
    exact twins.list _
  lay twins same found there absent := by
    subst same
    cases found.symm.trans there
    have known := familiar _ (Live.name_mem_of_portrait? found)
    refine (twins.drafts.allocate known absent).imp fun ⟨outcome, _⟩ ⟨_, _⟩ ⟨same, drafts⟩ => ?_
    subst same
    cases outcome with
    | error failure => exact ⟨rfl, { twins with drafts := drafts }⟩
    | ok place => exact ⟨rfl, twins.copy _ drafts⟩

end Walk.Twins

/-- Rounds that differ in how many objects they have walked, the second one fewer. -/
structure Round.Alike (left right : Round) : Prop where
  root : left.root = right.root
  seen : left.seen = right.seen
  archived : left.tally.archived = right.tally.archived
  recordedClasses : left.tally.recordedClasses = right.tally.recordedClasses
  walked : right.tally.walked ≤ left.tally.walked

/-- Totals that differ in how many objects were walked, the second ones fewer. -/
structure Totals.Alike (left right : Totals) : Prop where
  same : left = { right with walked := left.walked }
  walked : right.walked ≤ left.walked

/-- The tallies of such rounds can be added to such totals or not, unless the first ones have
counted more objects than 64 bits hold. -/
theorem Totals.Alike.add {left right : Totals} (alike : left.Alike right) {former latter : Round}
    (rounds : former.Alike latter) :
    (∃ breach totals others, left.add former.tally = (.error breach, totals) ∧
      right.add latter.tally = (.error breach, others)) ∨
    (∃ totals others, left.add former.tally = (.ok (), totals) ∧
      right.add latter.tally = (.ok (), others) ∧ totals.Alike others) ∨
    UInt64.size ≤ left.walked + former.tally.walked := by
  have fewer := Nat.add_le_add alike.walked rounds.walked
  have same := alike.same
  generalize left.walked = count at same fewer ⊢
  subst same
  simp only [Totals.add, rounds.archived, rounds.recordedClasses]
  by_cases exceeds : UInt64.size ≤ count + former.tally.walked
  · exact .inr (.inr exceeds)
  rw [if_neg exceeds, if_neg fun above => exceeds (Nat.le_trans above fewer)]
  split
  · exact .inl ⟨_, _, _, rfl, rfl⟩
  split
  · exact .inl ⟨_, _, _, rfl, rfl⟩
  split
  · exact .inl ⟨_, _, _, rfl, rfl⟩
  · exact .inr (.inl ⟨_, _, rfl, rfl, rfl, fewer⟩)

namespace Recording

/-- Recordings over twin drafts that have recorded the same. -/
structure Twins (known : List String) (left right : Recording) : Prop where
  drafts : Draft.Twins known right.copies left.draft right.draft
  copies : left.copies = right.copies
  ledger : left.ledger = right.ledger
  current : Option.Rel Round.Alike left.current right.current
  totals : left.totals.Alike right.totals
  verifies : left.verifies = right.verifies

/-- Two comparisons that both fail for the same cause, or both succeed and leave twins. -/
inductive Compared (known : List String) : Outcome Recording → Outcome Recording → Prop where
  | differ (failure : Failure) : Compared known (.error failure) (.error failure)
  | alike {left right : Recording} (after : Twins known left right) :
    Compared known (.ok left) (.ok right)

namespace Twins

variable {known : List String} {left right : Recording} {live : Live} {screening : Screening}
  {former latter : Round} {root : ObjectId} {region : Region}

theorem enter (twins : Twins known left right) (rounds : former.Alike latter) (entry : Entry) :
    Agree (Twins known) (left.enter former entry) (right.enter latter entry) := by
  unfold Recording.enter
  rw [rounds.root, twins.ledger]
  cases right.ledger.addEntry latter.root entry with
  | error breach => exact .broken
  | ok ledger => exact .ok ⟨rfl, { twins with ledger := rfl }⟩

theorem adopt (twins : Twins known left right) (rounds : former.Alike latter) {walk other : Walk}
    (walks : Walk.Twins known walk other) {leftAfter rightAfter : Draft}
    (drafts : Draft.Twins known other.copies leftAfter rightAfter) :
    Twins known (left.adopt former walk leftAfter) (right.adopt latter other rightAfter) where
  drafts := drafts
  copies := walks.copies
  ledger := by
    simp only [Recording.adopt, twins.ledger, rounds.root, walks.classes]
  current := by
    simp only [Recording.adopt]
    refine .some ⟨rounds.root, walks.seen, ?_, ?_, walks.walked⟩
    · simp only [rounds.archived, walks.copied]
    · simp only [twins.ledger, rounds.root, rounds.recordedClasses, walks.classes]
  totals := twins.totals
  verifies := twins.verifies

theorem abandon (twins : Twins known left right) (rounds : former.Alike latter) {walk other : Walk}
    (walks : Walk.Twins known walk other) {failure : Failure}
    (first : Walk.advance live screening region [root]
      (Walk.start left.draft left.copies former.seen former.tally.walked) =
        .ok (.error failure, walk))
    (second : Walk.advance live screening region [root]
      (Walk.start right.draft right.copies latter.seen latter.tally.walked) =
        .ok (.error failure, other)) :
    Twins known (left.abandon former walk) (right.abandon latter other) := by
  obtain ⟨one, longer, _⟩ := abandoned twins.drafts.covered_left first
  obtain ⟨two, more, _⟩ := abandoned twins.drafts.covered second
  have named := walks.drafts.named
  have renamed := walks.drafts.renamed
  rw [one, two]
  exact { twins with
    drafts := twins.drafts.rename longer ⟨named.distinct, named.known⟩ more
      ⟨renamed.distinct, renamed.known⟩
    current := .some ⟨rounds.root, rounds.seen, rounds.archived, rounds.recordedClasses,
      walks.walked⟩ }

theorem copyGraph (twins : Twins known left right) (rounds : former.Alike latter)
    (familiar : ∀ name ∈ live.classNames, name ∈ known) (screening : Screening) (root : ObjectId)
    (region : Region) :
    Agree (Twins known) (left.copyGraph former live screening root region)
      (right.copyGraph latter live screening root region) := by
  have start : Walk.Twins known
      (Walk.start left.draft left.copies former.seen former.tally.walked)
      (Walk.start right.draft right.copies latter.seen latter.tally.walked) :=
    ⟨twins.drafts, twins.copies, rounds.seen, rfl, rfl, rfl, rfl, rounds.walked⟩
  have agree := (Walk.Twins.simulation familiar screening region).advance start
    (List.Forall₂.cons (rfl : root = root) .nil)
  unfold Recording.copyGraph
  generalize first : Walk.advance live screening region [root]
    (Walk.start left.draft left.copies former.seen former.tally.walked) = one at agree
  generalize second : Walk.advance live screening region [root]
    (Walk.start right.draft right.copies latter.seen latter.tally.walked) = two at agree
  simp only [first, second]
  cases agree with
  | broken => exact .broken
  | @ok one two here =>
    obtain ⟨outcome, walk⟩ := one
    obtain ⟨_, other⟩ := two
    obtain ⟨rfl, walks⟩ := here
    cases outcome with
    | error failure => exact .ok ⟨rfl, twins.abandon rounds walks first second⟩
    | ok _ =>
      refine Parallel.bind (R := Twins known) ?_ fun kept later after => ?_
      · unfold keep
        rw [walks.copies, walks.links]
        exact (walks.drafts.patchLinks _).bind fun _ _ drafts =>
          .ok (twins.adopt rounds walks drafts)
      · simp only [after.copies]
        split
        · exact .ok ⟨rfl, after⟩
        · exact .broken

theorem compare (twins : Twins known left right) (few : known.length ≤ UInt32.size) (live : Live)
    (root : ObjectId) {place : Place} (here : place.Taken right.copies) :
    Parallel (Compared known) (left.compare live root place) (right.compare live root place) := by
  unfold Recording.compare
  rw [twins.verifies, twins.drafts.verify few live root here]
  split
  · cases right.draft.verify live root place with
    | error breach => exact .broken
    | ok outcome =>
      cases outcome with
      | error failure => exact .ok (.differ failure)
      | ok _ =>
        have totals : left.totals.addVerification.Alike right.totals.addVerification :=
          ⟨by rw [twins.totals.same]; rfl, twins.totals.walked⟩
        exact .ok (.alike { twins with totals := totals, verifies := rfl })
  · exact .ok (.alike twins)

theorem archiveObject (twins : Twins known left right) (few : known.length ≤ UInt32.size)
    (rounds : former.Alike latter) (familiar : ∀ name ∈ live.classNames, name ∈ known)
    (offset : UInt32) :
    Agree (Twins known) (left.archiveObject former live screening root offset region)
      (right.archiveObject latter live screening root offset region) := by
  have agree := twins.copyGraph rounds familiar screening root region
  unfold Recording.archiveObject
  generalize left.copyGraph former live screening root region = one at agree
  generalize second : right.copyGraph latter live screening root region = two at agree
  cases agree with
  | broken => exact .broken
  | @ok one two here =>
    obtain ⟨outcome, leftAfter⟩ := one
    obtain ⟨_, rightAfter⟩ := two
    obtain ⟨rfl, after⟩ := here
    cases outcome with
    | error failure => exact .ok ⟨rfl, after⟩
    | ok place =>
      obtain ⟨walk, draft, _, _, same, found⟩ := copyGraph_ok second
      have here : place.Taken rightAfter.copies := ⟨root, by rw [same]; exact found⟩
      simp only [bind, Except.bind]
      have compared := after.compare few live root here
      generalize leftAfter.compare live root place = one at compared
      generalize rightAfter.compare live root place = two at compared
      cases compared with
      | broken => exact .broken
      | ok compared =>
        cases compared with
        | differ failure => exact .ok ⟨rfl, after⟩
        | @alike leftLast rightLast last =>
          simp only [last.drafts.narrowing]
          cases rightLast.draft.narrowing.narrow place.address with
          | error breach => exact .broken
          | ok narrow => exact last.enter rounds _

theorem archiveStatic (twins : Twins known left right) (few : known.length ≤ UInt32.size)
    (familiar : ∀ name ∈ live.classNames, name ∈ known) (ofClass : ClassId) (offset : UInt32) :
    Agree (Twins known) (left.archiveStatic live screening ofClass offset region)
      (right.archiveStatic live screening ofClass offset region) := by
  have current := twins.current
  unfold Recording.archiveStatic
  generalize left.current = one at current
  generalize right.current = two at current
  cases current with
  | none => exact .broken
  | some rounds =>
    simp only [bind, Except.bind]
    cases live.shapeOf ofClass with
    | error breach => exact .broken
    | ok shape =>
      simp only
      split
      · exact .ok ⟨rfl, twins⟩
      · exact twins.enter rounds _
      · exact twins.enter rounds _
      · exact twins.archiveObject few rounds familiar offset

theorem archiveNomination (twins : Twins known left right) (few : known.length ≤ UInt32.size)
    (familiar : ∀ name ∈ live.classNames, name ∈ known) (nomination : Nomination) :
    Agree (Twins known) (left.archiveNomination live screening nomination)
      (right.archiveNomination live screening nomination) := by
  unfold Recording.archiveNomination
  split
  · exact .ok ⟨rfl, twins⟩
  · exact twins.archiveStatic few familiar _ _

theorem markPartial (twins : Twins known left right) :
    Twins known left.markPartial right.markPartial := by
  have current := twins.current
  unfold Recording.markPartial
  generalize left.current = one at current ⊢
  generalize right.current = two at current ⊢
  cases current with
  | none => exact twins
  | some rounds =>
    exact { twins with
      ledger := by simp only [twins.ledger, rounds.root]
      current := .some rounds }

theorem startRound (twins : Twins known left right) (live : Live) (ofClass : ClassId)
    (isPartial : Bool) :
    Parallel (Twins known) (left.startRound live ofClass isPartial)
      (right.startRound live ofClass isPartial) := by
  have idle : left.current.isNone = right.current.isNone := by
    have current := twins.current
    generalize left.current = one at current
    generalize right.current = two at current
    cases current <;> rfl
  unfold Recording.startRound ensure
  simp only [idle, twins.ledger]
  split
  · simp only [bind, Except.bind]
    cases live.shapeOf ofClass with
    | error breach => exact .broken
    | ok shape =>
      exact .ok { twins with
        ledger := rfl
        current := .some ⟨rfl, rfl, rfl, rfl, Nat.le_refl _⟩ }
  · exact .broken

/-- Twins end a round or are stopped together, unless the first one has counted more objects than
64 bits hold. -/
theorem endRound (twins : Twins known left right) :
    (∃ breach, left.endRound = .error breach ∧ right.endRound = .error breach) ∨
    (∃ tally other leftAfter rightAfter, left.endRound = .ok (tally, leftAfter) ∧
      right.endRound = .ok (other, rightAfter) ∧ Twins known leftAfter rightAfter) ∨
    ∃ round, left.current = some round ∧
      UInt64.size ≤ left.totals.walked + round.tally.walked := by
  have current := twins.current
  unfold Recording.endRound
  generalize one : left.current = former at current
  generalize two : right.current = latter at current
  cases current with
  | none => exact .inl ⟨_, rfl, rfl⟩
  | @some former latter rounds =>
    rcases twins.totals.add rounds with ⟨breach, totals, others, first, second⟩ |
      ⟨totals, others, first, second, alike⟩ | exceeds
    · simp only [first, second]
      exact .inl ⟨breach, rfl, rfl⟩
    · simp only [first, second]
      exact .inr (.inl ⟨_, _, _, _, rfl, rfl, { twins with current := .none, totals := alike }⟩)
    · exact .inr (.inr ⟨former, rfl, exceeds⟩)

end Twins
end Recording
end FrozenHeap
