import FrozenHeap.Proofs.Dump.Groups
import FrozenHeap.Proofs.Dump.Pages
import FrozenHeap.Proofs.Recording.Counts

namespace FrozenHeap.Dump

/-- A dump that was screened has gone on recording; nothing else of it changes. -/
structure Underway (screened dump : Dump) : Prop where
  same : dump = { screened with recording := dump.recording }
  recorded : dump.recording.Truthful screened.live

/-- The nomination of an index is to be archived, for this field. -/
def Offers (dump : Dump) (index : Nat) (ofClass : ClassId) (offset : UInt32) : Prop :=
  ∃ nomination, dump.nominations[index]? = some nomination ∧ nomination.isPreservable = true ∧
    nomination.resolved = some (ofClass, offset)

/-- The nomination of an index is for the closed region. -/
def Closing (dump : Dump) (index : Nat) : Prop :=
  ∀ nomination, dump.nominations[index]? = some nomination → nomination.region = .closed

/-- What a round for so many fields adds to the counts at most. -/
def toll (dump : Dump) (fields : Nat) : Nat := fields * (3 * dump.live.objects.size) + 1

/-- A dump has gone on: entries were kept, and none gained but where it was allowed. -/
structure Onward (screened : Dump) (allowed : ClassId → UInt32 → Prop) (closing : Prop)
    (cost : Nat) (before after : Dump) : Prop where
  underway : screened.Underway after
  kept : ∀ ofClass offset, before.recording.ledger.Entered ofClass offset →
    after.recording.ledger.Entered ofClass offset
  gained : ∀ ofClass offset, after.recording.ledger.Entered ofClass offset →
    before.recording.ledger.Entered ofClass offset ∨ allowed ofClass offset
  unopened : closing → Unopened before.recording.copies → Unopened after.recording.copies
  spent : after.recording.spent ≤ before.recording.spent + cost

variable {screened before middle after dump turn : Dump} {allowed others : ClassId → UInt32 → Prop}
  {closing strict : Prop} {cost more : Nat} {root : ClassId} {index : Nat} {answer : Option Entry}

namespace Onward

theorem refl (underway : screened.Underway before) :
    screened.Onward allowed closing 0 before before :=
  ⟨underway, fun _ _ => id, fun _ _ => .inl, fun _ => id, Nat.le_refl _⟩

theorem trans (front : screened.Onward allowed closing cost before middle)
    (back : screened.Onward allowed closing more middle after) :
    screened.Onward allowed closing (cost + more) before after where
  underway := back.underway
  kept ofClass offset old := back.kept ofClass offset (front.kept ofClass offset old)
  gained ofClass offset entered := by
    rcases back.gained ofClass offset entered with early | late
    · exact front.gained ofClass offset early
    · exact .inr late
  unopened closed old := back.unopened closed (front.unopened closed old)
  spent := by
    have first := front.spent
    have second := back.spent
    omega

theorem weaken (onward : screened.Onward allowed closing cost before after)
    (wider : ∀ ofClass offset, allowed ofClass offset → others ofClass offset)
    (stricter : strict → closing) (dearer : cost ≤ more) :
    screened.Onward others strict more before after where
  underway := onward.underway
  kept := onward.kept
  gained ofClass offset entered := (onward.gained ofClass offset entered).imp_right (wider _ _)
  unopened closed := onward.unopened (stricter closed)
  spent := Nat.le_trans onward.spent (Nat.add_le_add_left dearer _)

/-- What enters nothing and opens nothing may happen anywhere. -/
theorem anywhere (onward : screened.Onward (fun _ _ => False) True cost before after) :
    screened.Onward allowed closing cost before after :=
  onward.weaken (fun _ _ => False.elim) (fun _ => trivial) (Nat.le_refl _)

/-- What leads a dump onward item by item leads it onward. -/
theorem fold {α : Type} {holds : Dump → Prop} {change : Dump → α → Run Dump} {price : α → Nat}
    {items : List α} (underway : screened.Underway before) (initial : holds before)
    (step : ∀ item ∈ items, ∀ state next, screened.Underway state → holds state →
      change state item = .ok next →
        screened.Onward allowed closing (price item) state next ∧ holds next)
    (done : items.foldlM change before = .ok after) :
    screened.Onward allowed closing (items.map price).sum before after ∧ holds after := by
  induction items generalizing before with
  | nil =>
    cases done
    exact ⟨.refl underway, initial⟩
  | cons item rest ih =>
    rw [List.foldlM_cons] at done
    obtain ⟨next, first, done⟩ := bind_eq_ok_iff.mp done
    obtain ⟨onward, now⟩ := step item List.mem_cons_self before next underway initial first
    obtain ⟨later, last⟩ :=
      ih onward.underway now (fun other member => step other (List.mem_cons_of_mem _ member)) done
    exact ⟨onward.trans later, last⟩

/-- Items of the same price cost as much as there are of them. -/
theorem fold_const {α : Type} {holds : Dump → Prop} {change : Dump → α → Run Dump} {price : Nat}
    {items : List α} (underway : screened.Underway before) (initial : holds before)
    (step : ∀ item ∈ items, ∀ state next, screened.Underway state → holds state →
      change state item = .ok next → screened.Onward allowed closing price state next ∧ holds next)
    (done : items.foldlM change before = .ok after) :
    screened.Onward allowed closing (items.length * price) before after ∧ holds after := by
  obtain ⟨onward, last⟩ := fold underway initial step done
  rw [List.map_const', List.sum_replicate_nat] at onward
  exact ⟨onward, last⟩

end Onward

namespace Underway

variable (underway : screened.Underway dump)
include underway

theorem nominations : dump.nominations = screened.nominations := by rw [underway.same]

theorem live : dump.live = screened.live := by rw [underway.same]

theorem wholes : dump.wholes = screened.wholes := by rw [underway.same]

theorem screening : dump.screening = screened.screening := by rw [underway.same]

theorem offers : dump.Offers index = screened.Offers index := by
  unfold Offers
  rw [underway.nominations]

/-- Another recording may take the place of the one so far. -/
theorem record {recording : Recording} (recorded : recording.Truthful screened.live) :
    screened.Underway { dump with recording := recording } where
  same := by rw [underway.same]
  recorded := recorded

end Underway

/-- What a dump does with a nomination: it skips one that was rejected, and tries any other. -/
theorem archive_cases (done : dump.archive index = .ok (answer, after)) :
    (answer = none ∧ (∀ ofClass offset, ¬ dump.Offers index ofClass offset) ∧
      ∃ totals, totals.sum = dump.recording.totals.sum ∧
        after = { dump with recording := { dump.recording with totals := totals } }) ∨
    ∃ nomination outcome recording totals, dump.nominations[index]? = some nomination ∧
      nomination.isPreservable = true ∧ dump.recording.archiveNomination dump.live dump.screening
        nomination = .ok (outcome, recording) ∧
      (answer.isSome = true ↔ ∃ entry, outcome = .ok entry) ∧ totals.sum = recording.totals.sum ∧
      after = { dump with recording := { recording with totals := totals } } := by
  unfold archive at done
  split at done
  · rename_i absent
    cases done
    refine .inl ⟨rfl, fun ofClass offset => ?_, _, rfl, rfl⟩
    rintro ⟨nomination, found, _⟩
    rw [absent] at found
    cases found
  · rename_i nomination found
    split at done
    · rename_i preservable
      obtain ⟨⟨outcome, recording⟩, archived, done⟩ := bind_eq_ok_iff.mp done
      cases outcome with
      | error failure =>
        cases done
        exact .inr ⟨nomination, _, recording, recording.totals.addSkipped 1, found, preservable,
          archived, by simp, rfl, rfl⟩
      | ok entry =>
        cases done
        exact .inr ⟨nomination, _, recording, recording.totals.addArchived, found, preservable,
          archived, by simp, rfl, rfl⟩
    · rename_i rejected
      cases done
      refine .inl ⟨rfl, fun ofClass offset => ?_, dump.recording.totals.addSkipped 1, rfl, rfl⟩
      rintro ⟨other, again, preservable, _⟩
      rw [found] at again
      cases again
      exact rejected preservable

/-- What a turn does: it enters its field, or nothing. -/
structure Turned (screened : Dump) (root : ClassId) (index : Nat) (answer : Option Entry)
    (before after : Dump) : Prop where
  headed : after.recording.Headed root
  entered : ∀ ofClass offset, after.recording.ledger.Entered ofClass offset ↔
    before.recording.ledger.Entered ofClass offset ∨
      answer.isSome = true ∧ screened.Offers index ofClass offset
  onward : screened.Onward (screened.Offers index) (screened.Closing index)
    (3 * screened.live.objects.size) before after

/-- The root that a nomination belongs to. -/
def BelongsTo (dump : Dump) (root : ClassId) (index : Nat) : Prop :=
  ∀ nomination, dump.nominations[index]? = some nomination →
    ∃ offset, nomination.resolved = some (root, offset)

theorem Underway.archive (underway : screened.Underway dump) (headed : dump.recording.Headed root)
    (belongs : screened.BelongsTo root index) (done : dump.archive index = .ok (answer, after)) :
    screened.Turned root index answer dump after := by
  rcases archive_cases done with ⟨rfl, rejected, totals, sum, rfl⟩ |
    ⟨nomination, outcome, recording, totals, found, preservable, archived, same, sum, rfl⟩
  · have spent : { dump.recording with totals := totals }.spent = dump.recording.spent := by
      simp only [Recording.spent, sum]
    refine ⟨⟨headed.rooted, headed.paged⟩, fun ofClass offset => by simp,
      underway.record (underway.recorded.recount totals), fun _ _ => id, fun _ _ => .inl,
      fun _ => id, ?_⟩
    rw [spent]
    exact Nat.le_add_right _ _
  · rw [underway.nominations] at found
    obtain ⟨offset, resolved⟩ := belongs nomination found
    rw [underway.live, underway.screening] at archived
    simp only [Recording.archiveNomination, resolved] at archived
    obtain ⟨tiles, intact⟩ := underway.recorded.intact
    obtain ⟨truthful, _⟩ := underway.recorded.archiveStatic headed.rooted archived
    obtain ⟨round, current, rfl⟩ := headed.rooted
    have attempt := Recording.attempt_of_archiveStatic current archived
    have spent : { recording with totals := totals }.spent = recording.spent := by
      simp only [Recording.spent, sum]
    have own (ofClass : ClassId) (place : UInt32) :
        screened.Offers index ofClass place ↔ ofClass = round.root ∧ place = offset := by
      constructor
      · rintro ⟨other, again, _, there⟩
        rw [found] at again
        cases again
        rw [resolved] at there
        cases there
        exact ⟨rfl, rfl⟩
      · rintro ⟨rfl, rfl⟩
        exact ⟨nomination, found, preservable, resolved⟩
    obtain ⟨still, entered⟩ := attempt.entered intact current headed
    refine ⟨⟨still.rooted, still.paged⟩, fun ofClass place => ?_,
      underway.record (truthful.recount totals), fun ofClass place old => ?_,
      fun ofClass place now => ?_, fun closing unopened => ?_, ?_⟩
    · rw [same, own]
      exact entered ofClass place
    · exact (entered ofClass place).mpr (.inl old)
    · rw [own]
      exact ((entered ofClass place).mp now).imp_right And.right
    · rw [closing nomination found] at attempt
      have kept : Unopened recording.copies := attempt.unopened intact current unopened
      exact kept
    · rw [spent]
      exact attempt.spent_le current

/-- Archive a nominated field, whatever the answer. -/
def archiveNext (dump : Dump) (index : Nat) : Run Dump := do return (← dump.archive index).2

/-- The nominations of some indices are to be archived, one of them for this field. -/
def OffersAmong (dump : Dump) (indices : List Nat) (ofClass : ClassId) (offset : UInt32) : Prop :=
  ∃ index ∈ indices, dump.Offers index ofClass offset

/-- Turns of one root, one after the other, enter their fields at most. -/
theorem Underway.archiveEach {indices : List Nat} (underway : screened.Underway dump)
    (headed : dump.recording.Headed root)
    (belong : ∀ index ∈ indices, screened.BelongsTo root index)
    (done : indices.foldlM archiveNext dump = .ok after) :
    screened.Onward (screened.OffersAmong indices) (∀ index ∈ indices, screened.Closing index)
      (indices.length * (3 * screened.live.objects.size)) dump after ∧
        after.recording.Headed root := by
  have step (index : Nat) (member : index ∈ indices) (state next : Dump)
      (underway : screened.Underway state) (headed : state.recording.Headed root)
      (step : state.archiveNext index = .ok next) :
      screened.Onward (screened.OffersAmong indices) (∀ index ∈ indices, screened.Closing index)
        (3 * screened.live.objects.size) state next ∧ next.recording.Headed root := by
    obtain ⟨⟨answer, later⟩, archived, same⟩ := bind_eq_ok_iff.mp step
    cases same
    have turned := underway.archive headed (belong index member) archived
    exact ⟨turned.onward.weaken (fun _ _ offers => ⟨index, member, offers⟩)
      (fun closing => closing index member) (Nat.le_refl _), turned.headed⟩
  exact Onward.fold_const underway headed step done

theorem Onward.among {indices others : List Nat}
    (onward : screened.Onward (screened.OffersAmong indices)
      (∀ index ∈ indices, screened.Closing index) cost before after) (more : indices ⊆ others) :
    screened.Onward (screened.OffersAmong others) (∀ index ∈ others, screened.Closing index) cost
      before after := by
  refine onward.weaken (fun ofClass offset among => ?_) (fun closing index listed => ?_)
    (Nat.le_refl _)
  · obtain ⟨index, listed, offers⟩ := among
    exact ⟨index, more listed, offers⟩
  · exact closing index (more listed)

theorem Underway.startRound {isPartial : Bool} (underway : screened.Underway dump)
    (done : dump.startRound root isPartial = .ok after) :
    screened.Onward (fun _ _ => False) True 0 dump after ∧ after.recording.Headed root := by
  obtain ⟨recording, started, same⟩ := bind_eq_ok_iff.mp done
  cases same
  rw [underway.live] at started
  obtain ⟨truthful, _⟩ := underway.recorded.startRound started
  obtain ⟨headed, copies, spent, entered⟩ := Recording.startRound_ok started
  refine ⟨?_, headed⟩
  constructor
  case underway => exact underway.record truthful
  case kept => exact fun ofClass offset => (entered ofClass offset).mpr
  case gained => exact fun ofClass offset now => .inl ((entered ofClass offset).mp now)
  case unopened => exact fun _ unopened => copies ▸ unopened
  case spent => exact Nat.le_of_eq spent

/-- A round for a class that exists can start when none is in progress. -/
theorem Underway.exists_startRound (underway : screened.Underway dump)
    (idle : dump.recording.current = none) (known : root.index < screened.live.classes.size)
    (isPartial : Bool) : ∃ after, dump.startRound root isPartial = .ok after := by
  rw [← underway.live] at known
  obtain ⟨recording, started⟩ := Recording.exists_startRound idle known isPartial
  exact ⟨_, bind_eq_ok_iff.mpr ⟨recording, started, rfl⟩⟩

/-- A round that is in progress can end, as long as the counts stay below 64 bits. -/
theorem exists_endRound (headed : dump.recording.Headed root)
    (small : dump.recording.spent + 1 < UInt64.size) :
    ∃ tally after, dump.endRound = .ok (tally, after) := by
  obtain ⟨round, current, _⟩ := headed.rooted
  obtain ⟨recording, ended⟩ := Recording.exists_endRound current small
  exact ⟨_, _, bind_eq_ok_iff.mpr ⟨(round.tally, recording), ended, rfl⟩⟩

theorem Underway.endRound {tally : Tally} (underway : screened.Underway dump)
    (done : dump.endRound = .ok (tally, after)) :
    screened.Onward (fun _ _ => False) True 1 dump after ∧ after.recording.current = none := by
  obtain ⟨⟨_, recording⟩, ended, same⟩ := bind_eq_ok_iff.mp done
  cases same
  have truthful := underway.recorded.endRound ended
  obtain ⟨same, spent⟩ := Recording.endRound_ok ended
  rw [same] at truthful spent ⊢
  exact ⟨⟨underway.record truthful, fun _ _ => id, fun _ _ => .inl, fun _ => id,
    Nat.le_of_eq spent⟩, rfl⟩

/-- A group is archived in a round of its own, and enters its fields at most. -/
theorem Underway.archiveGroup {group : ClassId × List Nat} (underway : screened.Underway dump)
    (belong : ∀ index ∈ group.2, screened.BelongsTo group.1 index)
    (done : dump.archiveGroup group = .ok after) :
    screened.Onward (screened.OffersAmong group.2) (∀ index ∈ group.2, screened.Closing index)
      (screened.toll group.2.length) dump after ∧ after.recording.current = none := by
  obtain ⟨started, starts, done⟩ := bind_eq_ok_iff.mp done
  obtain ⟨archived, archives, done⟩ := bind_eq_ok_iff.mp done
  obtain ⟨⟨tally, ended⟩, ends, same⟩ := bind_eq_ok_iff.mp done
  cases same
  obtain ⟨first, headed⟩ := underway.startRound starts
  obtain ⟨turns, _⟩ := first.underway.archiveEach headed belong archives
  obtain ⟨last, idle⟩ := turns.underway.endRound ends
  have opening := first.anywhere.trans turns
  rw [Nat.zero_add] at opening
  exact ⟨opening.trans last.anywhere, idle⟩

/-- Groups are archived one after the other, and enter their fields at most. -/
theorem Underway.archiveGroups {groups : List (ClassId × List Nat)}
    (underway : screened.Underway dump) (idle : dump.recording.current = none)
    (among : ∀ group ∈ groups, group ∈ screened.groups)
    (done : groups.foldlM Dump.archiveGroup dump = .ok after) :
    screened.Onward (screened.OffersAmong (groups.flatMap (·.2)))
      (∀ index ∈ groups.flatMap (·.2), screened.Closing index)
      (groups.map fun group => screened.toll group.2.length).sum dump after ∧
        after.recording.current = none := by
  have within (group : ClassId × List Nat) (member : group ∈ groups) (index : Nat)
      (listed : index ∈ group.2) : index ∈ groups.flatMap (·.2) :=
    List.mem_flatMap.mpr ⟨group, member, listed⟩
  have step (group : ClassId × List Nat) (member : group ∈ groups) (state next : Dump)
      (underway : screened.Underway state) (_ : state.recording.current = none)
      (step : state.archiveGroup group = .ok next) :
      screened.Onward (screened.OffersAmong (groups.flatMap (·.2)))
        (∀ index ∈ groups.flatMap (·.2), screened.Closing index) (screened.toll group.2.length)
        state next ∧ next.recording.current = none := by
    have belong := grouped_of_mem_groups (among group member)
    obtain ⟨onward, idle⟩ := underway.archiveGroup belong step
    exact ⟨onward.weaken
      (fun _ _ ⟨index, listed, offers⟩ => ⟨index, within group member index listed, offers⟩)
      (fun closing index listed => closing index (within group member index listed))
      (Nat.le_refl _), idle⟩
  exact Onward.fold underway idle step done

/-- The turn of a nomination has come: the groups in front of its group have been archived, a round
for its class has started, and the nominations in front of it have had their turns. -/
inductive Turn (screened : Dump) (index : Nat) (turn : Dump) : Prop where
  | intro {front back : List (ClassId × List Nat)} {group : ClassId × List Nat}
      {earlier later : List Nat} {before started : Dump}
      (split : screened.groups = front ++ group :: back)
      (listed : group.2 = earlier ++ index :: later)
      (groups : front.foldlM archiveGroup screened = .ok before)
      (starts : before.startRound group.1 true = .ok started)
      (archives : earlier.foldlM archiveNext started = .ok turn)

theorem Turn.unique {other : Dump} (left : screened.Turn index turn)
    (right : screened.Turn index other) : turn = other := by
  obtain ⟨split, listed, groups, starts, archives⟩ := left
  obtain ⟨again, place, reached, opens, passes⟩ := right
  obtain ⟨rfl, rfl, rfl⟩ := split_unique split listed again place
  rw [groups] at reached
  cases reached
  rw [starts] at opens
  cases opens
  rw [archives] at passes
  cases passes
  rfl

/-- What a screened dump starts recording from. -/
structure Ready (screened : Dump) : Prop where
  underway : screened.Underway screened
  idle : screened.recording.current = none
  blank : ∀ ofClass offset, ¬ screened.recording.ledger.Entered ofClass offset
  unopened : Unopened screened.recording.copies
  unspent : screened.recording.spent = 0

/-- When all groups have been archived, at most their fields were entered. -/
theorem Ready.archiveGroups (ready : screened.Ready)
    (done : screened.groups.foldlM Dump.archiveGroup screened = .ok after) :
    screened.Onward (screened.OffersAmong (screened.groups.flatMap (·.2)))
      (∀ index ∈ screened.groups.flatMap (·.2), screened.Closing index)
      (screened.groups.map fun group => screened.toll group.2.length).sum screened after ∧
        after.recording.current = none :=
  ready.underway.archiveGroups ready.idle (fun _ listed => listed) done

theorem closing_of_grants {ofClass : ClassId} (grants : dump.Grants .closed ofClass index) :
    dump.Closing index := by
  obtain ⟨nomination, _, found, _, closed, _⟩ := grants
  intro other again
  rw [found] at again
  cases again
  exact closed

private theorem grants_of_closing {group : ClassId × List Nat} (closed : dump.Closing index)
    (member : group ∈ dump.groups) (listed : index ∈ group.2) :
    dump.Grants .closed group.1 index := by
  obtain ⟨region, _, member⟩ := List.mem_flatMap.mp member
  obtain ⟨nomination, offset, found, resolved, _, apart⟩ := (mem_group member).mp listed
  exact ⟨nomination, offset, found, resolved, closed nomination found, apart⟩

/-- Where a nomination's turn comes, the turns before it were those of others, and if it is for the
closed region, so were they. -/
structure Due (screened : Dump) (index : Nat) (root : ClassId) (behind : List Nat) (turn : Dump) :
    Prop where
  belongs : screened.BelongsTo root index
  headed : turn.recording.Headed root
  others : index ∉ behind
  closing : screened.Closing index → ∀ other ∈ behind, screened.Closing other
  onward : ∃ cost, screened.Onward (screened.OffersAmong behind)
    (∀ other ∈ behind, screened.Closing other) cost screened turn

theorem Ready.due (ready : screened.Ready) {front back : List (ClassId × List Nat)}
    {group : ClassId × List Nat} {earlier later : List Nat} {started : Dump}
    (split : screened.groups = front ++ group :: back)
    (listed : group.2 = earlier ++ index :: later)
    (groups : front.foldlM Dump.archiveGroup screened = .ok before)
    (starts : before.startRound group.1 true = .ok started)
    (archives : earlier.foldlM archiveNext started = .ok turn) :
    screened.Due index group.1 (front.flatMap (·.2) ++ earlier) turn := by
  have member : group ∈ screened.groups := split ▸ List.mem_append_right _ List.mem_cons_self
  have belong := grouped_of_mem_groups member
  have place : index ∈ group.2 := listed ▸ List.mem_append_right _ List.mem_cons_self
  obtain ⟨first, _⟩ := ready.underway.archiveGroups ready.idle
    (fun other listed => split ▸ List.mem_append_left _ listed) groups
  obtain ⟨start, headed⟩ := first.underway.startRound starts
  obtain ⟨turns, headed⟩ := start.underway.archiveEach headed
    (fun other member => belong other (listed ▸ List.mem_append_left _ member)) archives
  have groups := first.among (List.subset_append_left _ earlier)
  have fields := turns.among (List.subset_append_right (front.flatMap (·.2)) _)
  constructor
  case belongs => exact belong index place
  case headed => exact headed
  case others => exact (apart_of_split split listed).1
  case onward => exact ⟨_, (groups.trans start.anywhere).trans fields⟩
  case closing =>
    intro closing other behind
    obtain ⟨closed, fronts⟩ := closed_of_front split place (grants_of_closing closing member place)
    rcases List.mem_append.mp behind with front | early
    · obtain ⟨group, member, place⟩ := List.mem_flatMap.mp front
      exact closing_of_grants ((mem_group (fronts group member)).mp place)
    · exact closing_of_grants ((mem_group closed).mp (listed ▸ List.mem_append_left _ early))

theorem Turn.due (turns : screened.Turn index turn) (ready : screened.Ready) :
    ∃ root behind, screened.Due index root behind turn := by
  obtain ⟨split, listed, groups, starts, archives⟩ := turns
  exact ⟨_, _, ready.due split listed groups starts archives⟩

private theorem exists_turn_of_archiveGroup {group : ClassId × List Nat} {earlier later : List Nat}
    (listed : group.2 = earlier ++ index :: later) (done : before.archiveGroup group = .ok after) :
    ∃ started turn answer next archived tally, before.startRound group.1 true = .ok started ∧
      earlier.foldlM archiveNext started = .ok turn ∧ turn.archive index = .ok (answer, next) ∧
      later.foldlM archiveNext next = .ok archived ∧ archived.endRound = .ok (tally, after) := by
  obtain ⟨started, starts, done⟩ := bind_eq_ok_iff.mp done
  obtain ⟨archived, archives, done⟩ := bind_eq_ok_iff.mp done
  obtain ⟨⟨tally, ended⟩, ends, same⟩ := bind_eq_ok_iff.mp done
  cases same
  rw [listed] at archives
  obtain ⟨turn, _, front, step, back⟩ := foldlM_append_cons_eq_ok_iff.mp archives
  obtain ⟨⟨answer, next⟩, archive, same⟩ := bind_eq_ok_iff.mp step
  cases same
  exact ⟨started, turn, answer, next, archived, tally, starts, front, archive, back, ends⟩

/-- Where all groups were archived, a nomination of one of them had its turn, and what came after it
were the turns of others. -/
theorem Ready.exists_turn (ready : screened.Ready) {region : Region}
    (grants : screened.Grants region root index)
    (groups : screened.groups.foldlM Dump.archiveGroup screened = .ok after) :
    ∃ turn answer next ahead cost, screened.Turn index turn ∧
      turn.archive index = .ok (answer, next) ∧ index ∉ ahead ∧
      screened.Onward (screened.OffersAmong ahead) False cost next after := by
  obtain ⟨group, member, place⟩ := exists_group grants
  have member : group ∈ screened.groups :=
    List.mem_flatMap.mpr ⟨region, by cases region <;> decide, member⟩
  have belong := grouped_of_mem_groups member
  obtain ⟨front, back, split⟩ := List.append_of_mem member
  obtain ⟨earlier, later, listed⟩ := List.append_of_mem place
  rw [split] at groups
  obtain ⟨before, ended, fronts, done, backs⟩ := foldlM_append_cons_eq_ok_iff.mp groups
  obtain ⟨started, turn, answer, next, archived, tally, starts, archives, archive, rest, ends⟩ :=
    exists_turn_of_archiveGroup listed done
  have due := ready.due split listed fronts starts archives
  obtain ⟨_, reached⟩ := due.onward
  have turned := reached.underway.archive due.headed due.belongs archive
  obtain ⟨others, _⟩ := turned.onward.underway.archiveEach turned.headed
    (fun other member => belong other (listed ▸ List.mem_append_right _ (.tail _ member))) rest
  obtain ⟨ending, idle⟩ := others.underway.endRound ends
  obtain ⟨last, _⟩ := ending.underway.archiveGroups idle
    (fun other listed => split ▸ List.mem_append_right _ (.tail _ listed)) backs
  have turns : screened.Turn index turn := .intro split listed fronts starts archives
  have apart := (apart_of_split split listed).2
  have fields := others.among (List.subset_append_left _ (back.flatMap (·.2)))
  have groups := last.among (List.subset_append_right later _)
  have onward := ((fields.trans ending.anywhere).trans groups).weaken (fun _ _ => id)
    False.elim (Nat.le_refl _)
  exact ⟨turn, answer, next, later ++ back.flatMap (·.2), _, turns, archive, apart, onward⟩

end FrozenHeap.Dump
