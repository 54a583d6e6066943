import FrozenHeap.Proofs.Dump.Completion
import FrozenHeap.Proofs.Recording.Deciding
import FrozenHeap.Proofs.Thaw.Serving

namespace FrozenHeap

theorem Live.Anchored.mono {live : Live} {statics others : ClassId → UInt32 → Prop}
    {object : ObjectId} (anchored : live.Anchored statics object)
    (wider : ∀ ofClass offset, statics ofClass offset → others ofClass offset) :
    live.Anchored others object := by
  obtain ⟨ofClass, offset, root, among, value, path⟩ := anchored
  exact ⟨ofClass, offset, root, wider ofClass offset among, value, path⟩

namespace Recording

/-- A recording has gone on. What was copied and entered stays, and new copies are in these regions
and behind static fields that were entered. -/
structure Spreads (live : Live) (allowed : Region → Prop) (before after : Recording) : Prop where
  kept : ∀ (object : ObjectId) (place : Place), before.copies[object]? = some place →
    after.copies[object]? = some place
  entered : ∀ ofClass offset, before.ledger.Entered ofClass offset →
    after.ledger.Entered ofClass offset
  gained : ∀ (object : ObjectId) (place : Place), after.copies[object]? = some place →
    before.copies[object]? = some place ∨
      allowed place.region ∧ live.Anchored after.ledger.Entered object

variable {live : Live} {screening : Screening} {allowed : Region → Prop}
  {before middle after recording : Recording} {round : Round} {tiles : List Tile}
  {ofClass : ClassId}
  {offset : UInt32} {region : Region}

namespace Spreads

theorem of_copies_eq (copies : after.copies = before.copies) (entered : ∀ ofClass offset,
    before.ledger.Entered ofClass offset → after.ledger.Entered ofClass offset) :
    Spreads live allowed before after where
  kept _ _ known := copies ▸ known
  entered := entered
  gained _ _ known := .inl (copies ▸ known)

theorem refl (recording : Recording) : Spreads live allowed recording recording :=
  of_copies_eq rfl fun _ _ => id

theorem trans (front : Spreads live allowed before middle)
    (back : Spreads live allowed middle after) :
    Spreads live allowed before after where
  kept object place known := back.kept object place (front.kept object place known)
  entered ofClass offset old := back.entered ofClass offset (front.entered ofClass offset old)
  gained object place known := by
    rcases back.gained object place known with early | late
    · exact (front.gained object place early).imp_right fun both =>
        ⟨both.1, both.2.mono back.entered⟩
    · exact .inr late

theorem recount (spreads : Spreads live allowed before after) (totals : Totals) :
    Spreads live allowed before { after with totals := totals } :=
  ⟨spreads.kept, spreads.entered, spreads.gained⟩

end Spreads

/-- What an attempt copies is behind its own static field, which is entered then. -/
theorem Attempt.spreads (intact : recording.Intact live.classNames live.portrait? tiles)
    (current : recording.current = some round) (headed : recording.Headed round.root)
    (fits : allowed region) {outcome : Outcome Entry}
    (attempt : Attempt live screening recording round round.root offset region outcome after) :
    Spreads live allowed recording after := by
  obtain ⟨_, entered⟩ := attempt.entered intact current headed
  have kept (other : ClassId) (place : UInt32) (old : recording.ledger.Entered other place) :
      after.ledger.Entered other place := (entered other place).mpr (.inl old)
  cases attempt with
  | missing => exact .refl _
  | plain => exact .of_copies_eq rfl kept
  | refused _ copying =>
    obtain ⟨_, same⟩ := intact.obstructs_copyGraph current copying
    exact .of_copies_eq same kept
  | differs _ copying compared =>
    -- In a heap that does not change, no copy differs from its object.
    obtain ⟨_, finished, known⟩ := intact.copyGraph current (fun _ listed => listed) copying
    rw [remember_self] at finished
    obtain ⟨_, same⟩ := finished.exists_compare (known _ rfl)
    cases same.symm.trans compared
  | @copied root _ _ _ entry _ value copying compares here added =>
    have gains := intact.gains_copyGraph current copying
    have now := (entered round.root offset).mpr (.inr ⟨⟨entry, rfl⟩, rfl, rfl⟩)
    rw [Intact.compare_ok compares] at now ⊢
    refine ⟨gains.kept, kept, fun object place known => ?_⟩
    by_cases old : object ∈ recording.copies
    · obtain ⟨earlier, there⟩ := mem_copies_iff.mp old
      cases (gains.kept object earlier there).symm.trans known
      exact .inl there
    · obtain ⟨path, placed⟩ := gains.gained object place old known
      exact .inr ⟨placed ▸ fits, round.root, offset, root, now, value, path⟩

private theorem Truthful.root_mem (recorded : recording.Truthful live)
    (entered : recording.ledger.Entered ofClass offset) {root : ObjectId}
    (value : live.static? ofClass offset = some (.ref root)) : root ∈ recording.copies := by
  obtain ⟨page, member, rfl, entry, listed, rfl⟩ := entered
  obtain ⟨slot, same, tells⟩ := (recorded.pages page member).entries entry listed
  cases value.symm.trans same
  obtain ⟨place, _, known, _⟩ := tells
  exact mem_copies_iff.mpr ⟨place, known⟩

/-- Whatever is behind a static field that was entered has a copy. -/
theorem Truthful.mem_of_anchored (recorded : recording.Truthful live) {object : ObjectId}
    (anchored : live.Anchored recording.ledger.Entered object) : object ∈ recording.copies := by
  obtain ⟨ofClass, offset, root, entered, value, path⟩ := anchored
  obtain ⟨tiles, intact⟩ := recorded.intact
  have here := recorded.root_mem entered value
  clear entered value
  induction path with
  | refl => exact here
  | tail _ edge ih => exact intact.linked.mem_of_refers ih edge

end Recording

namespace Dump

variable {screened dump after : Dump} {root : ClassId} {index : Nat} {allowed : Region → Prop}

/-- The nomination of an index is for one of these regions. -/
def AimsAt (dump : Dump) (allowed : Region → Prop) (index : Nat) : Prop :=
  ∀ nomination, dump.nominations[index]? = some nomination → allowed nomination.region

namespace Underway

variable (underway : screened.Underway dump)
include underway

private theorem spreads_archive (headed : dump.recording.Headed root)
    (belongs : screened.BelongsTo root index) (aims : screened.AimsAt allowed index)
    {answer : Option Entry} (done : dump.archive index = .ok (answer, after)) :
    dump.recording.Spreads screened.live allowed after.recording := by
  rcases archive_cases done with ⟨_, _, totals, _, rfl⟩ |
    ⟨nomination, outcome, recording, totals, found, _, archived, _, _, rfl⟩
  · exact (Recording.Spreads.refl _).recount totals
  · rw [underway.nominations] at found
    obtain ⟨offset, resolved⟩ := belongs nomination found
    rw [underway.live, underway.screening] at archived
    simp only [Recording.archiveNomination, resolved] at archived
    obtain ⟨tiles, intact⟩ := underway.recorded.intact
    obtain ⟨round, current, rfl⟩ := headed.rooted
    have attempt := Recording.attempt_of_archiveStatic current archived
    exact (attempt.spreads intact current headed (aims nomination found)).recount totals

private theorem spreads_startRound {isPartial : Bool}
    (done : dump.startRound root isPartial = .ok after) :
    dump.recording.Spreads screened.live allowed after.recording := by
  obtain ⟨recording, started, same⟩ := bind_eq_ok_iff.mp done
  cases same
  rw [underway.live] at started
  obtain ⟨_, copies, _, entered⟩ := Recording.startRound_ok started
  exact .of_copies_eq copies fun _ _ => (entered _ _).mpr

omit underway in
private theorem spreads_endRound {tally : Tally} (done : dump.endRound = .ok (tally, after)) :
    dump.recording.Spreads screened.live allowed after.recording := by
  obtain ⟨⟨_, recording⟩, ended, same⟩ := bind_eq_ok_iff.mp done
  cases same
  rw [(Recording.endRound_ok ended).1]
  exact .of_copies_eq rfl fun _ _ => id

private theorem spreads_archiveGroup {group : ClassId × List Nat}
    (belong : ∀ index ∈ group.2, screened.BelongsTo group.1 index)
    (aim : ∀ index ∈ group.2, screened.AimsAt allowed index)
    (done : dump.archiveGroup group = .ok after) :
    dump.recording.Spreads screened.live allowed after.recording := by
  obtain ⟨started, starts, done⟩ := bind_eq_ok_iff.mp done
  obtain ⟨archived, archives, done⟩ := bind_eq_ok_iff.mp done
  obtain ⟨⟨tally, ended⟩, ends, same⟩ := bind_eq_ok_iff.mp done
  cases same
  obtain ⟨first, headed⟩ := underway.startRound starts
  have turns := foldlM_preserves
    (fun state => screened.Underway state ∧ state.recording.Headed group.1 ∧
      started.recording.Spreads screened.live allowed state.recording)
    (fun index member state next step ⟨underway, headed, spreads⟩ => by
      obtain ⟨⟨answer, later⟩, archived, same⟩ := bind_eq_ok_iff.mp step
      cases same
      have turned := underway.archive headed (belong index member) archived
      exact ⟨turned.onward.underway, turned.headed, spreads.trans
        (underway.spreads_archive headed (belong index member) (aim index member) archived)⟩)
    ⟨first.underway, headed, .refl _⟩ archives
  exact (underway.spreads_startRound starts).trans (turns.2.2.trans (spreads_endRound ends))

/-- Groups copy into the regions that their nominations are for. -/
theorem spreads_archiveGroups {groups : List (ClassId × List Nat)}
    (among : ∀ group ∈ groups, group ∈ screened.groups)
    (aim : ∀ group ∈ groups, ∀ index ∈ group.2, screened.AimsAt allowed index)
    (done : groups.foldlM Dump.archiveGroup dump = .ok after) :
    dump.recording.Spreads screened.live allowed after.recording := by
  have turns := foldlM_preserves
    (fun state => screened.Underway state ∧
      dump.recording.Spreads screened.live allowed state.recording)
    (fun group member state next step ⟨underway, spreads⟩ => by
      have belong := grouped_of_mem_groups (among group member)
      obtain ⟨onward, _⟩ := underway.archiveGroup belong step
      exact ⟨onward.underway, spreads.trans
        (underway.spreads_archiveGroup belong (aim group member) step)⟩)
    ⟨underway, .refl _⟩ done
  exact turns.2

private theorem spreads_archiveStatic (headed : dump.recording.Headed root) {field : StaticField}
    (done : dump.archiveStatic root field = .ok after) :
    dump.recording.Spreads screened.live (· = .opened) after.recording := by
  obtain ⟨⟨outcome, recording⟩, archived, done⟩ := bind_eq_ok_iff.mp done
  rw [underway.live] at archived
  obtain ⟨tiles, intact⟩ := underway.recorded.intact
  obtain ⟨round, current, rfl⟩ := headed.rooted
  have attempt := Recording.attempt_of_archiveStatic current archived
  obtain ⟨still, _⟩ := attempt.entered intact current headed
  have spreads : dump.recording.Spreads screened.live (· = .opened) recording :=
    attempt.spreads intact current headed rfl
  cases outcome with
  | error failure =>
    cases done
    obtain ⟨_, copies, _, entered⟩ := Recording.markPartial_ok still
    exact (spreads.trans (.of_copies_eq copies fun _ _ => (entered _ _).mpr)).recount _
  | ok entry =>
    cases done
    exact spreads.recount _

private theorem spreads_archiveWhole (done : dump.archiveWhole root = .ok after) :
    dump.recording.Spreads screened.live (· = .opened) after.recording := by
  obtain ⟨shape, _, done⟩ := bind_eq_ok_iff.mp done
  simp only at done
  split at done
  · obtain ⟨started, starts, done⟩ := bind_eq_ok_iff.mp done
    obtain ⟨archived, archives, done⟩ := bind_eq_ok_iff.mp done
    obtain ⟨⟨tally, ended⟩, ends, same⟩ := bind_eq_ok_iff.mp done
    cases same
    obtain ⟨first, headed⟩ := underway.startRound starts
    have fields := foldlM_preserves
      (fun state => screened.Underway state ∧ state.recording.Headed root ∧
        started.recording.Spreads screened.live (· = .opened) state.recording)
      (fun field _ state next step ⟨underway, headed, spreads⟩ => by
        obtain ⟨onward, still⟩ := underway.archiveStatic headed step
        exact ⟨onward.underway, still, spreads.trans (underway.spreads_archiveStatic headed step)⟩)
      ⟨first.underway, headed, .refl _⟩ archives
    exact (underway.spreads_startRound starts).trans (fields.2.2.trans (spreads_endRound ends))
  · cases done
    exact (Recording.Spreads.refl _).recount _

private theorem spreads_archiveWholes {wholes : List ClassId} (idle : dump.recording.current = none)
    (done : wholes.foldlM Dump.archiveWhole dump = .ok after) :
    dump.recording.Spreads screened.live (· = .opened) after.recording := by
  have classes := foldlM_preserves
    (fun state => screened.Underway state ∧ state.recording.current = none ∧
      dump.recording.Spreads screened.live (· = .opened) state.recording)
    (fun ofClass _ state next step ⟨underway, idle, spreads⟩ => by
      obtain ⟨onward, still⟩ := underway.archiveWhole idle step
      exact ⟨onward.underway, still, spreads.trans (underway.spreads_archiveWhole step)⟩)
    ⟨underway, idle, .refl _⟩ done
  exact classes.2.2

end Underway

private theorem Grants.aimsAt {ofClass : ClassId} {region : Region}
    (grants : screened.Grants region ofClass index) :
    screened.AimsAt (· = region) index := by
  obtain ⟨nomination, _, found, _, here, _⟩ := grants
  intro other again
  cases found.symm.trans again
  exact here

/-- The groups of a region offer the static fields that are granted it. -/
theorem offersAmong_groupsOf {ofClass : ClassId} {offset : UInt32} {region : Region} :
    screened.OffersAmong ((screened.groupsOf region).flatMap (·.2)) ofClass offset ↔
      ∃ index, screened.Grants region ofClass index ∧ screened.Offers index ofClass offset := by
  constructor
  · rintro ⟨index, listed, offers⟩
    obtain ⟨group, member, listed⟩ := List.mem_flatMap.mp listed
    have grants := (mem_group member).mp listed
    obtain ⟨nomination, _, found, owned, _⟩ := id grants
    obtain ⟨_, again, _, resolved⟩ := id offers
    cases found.symm.trans again
    cases owned.symm.trans resolved
    exact ⟨index, grants, offers⟩
  · rintro ⟨index, grants, offers⟩
    obtain ⟨group, member, listed⟩ := exists_group grants
    exact ⟨index, List.mem_flatMap.mpr ⟨group, member, listed⟩, offers⟩

/-- A nomination for the closed region, of a class that is not whole, has had its static
field entered. -/
def Closes (screened after : Dump) (ofClass : ClassId) (offset : UInt32) : Prop :=
  after.recording.ledger.Entered ofClass offset ∧
    ∃ index, screened.Grants .closed ofClass index ∧ screened.Offers index ofClass offset

namespace Vetted

variable (vetted : screened.Vetted) (done : screened.archiveScreened = .ok after)
include vetted done

/-- Between the last turn for the closed region and the first one for the open region, all copies
are closed; and what is entered later is not for the closed region. -/
theorem exists_sealed : ∃ sealed : Dump, screened.Underway sealed ∧
    Unopened sealed.recording.copies ∧
    screened.recording.Spreads screened.live (· = .closed) sealed.recording ∧
    sealed.recording.Spreads screened.live (· = .opened) after.recording ∧
    ∀ ofClass offset, sealed.recording.ledger.Entered ofClass offset ↔
      screened.Closes after ofClass offset := by
  obtain ⟨grouped, groups, wholes⟩ := bind_eq_ok_iff.mp done
  have among (region : Region) (group : ClassId × List Nat)
      (member : group ∈ screened.groupsOf region) : group ∈ screened.groups :=
    List.mem_flatMap.mpr ⟨region, by cases region <;> decide, member⟩
  have aim (region : Region) (group : ClassId × List Nat)
      (member : group ∈ screened.groupsOf region) (index : Nat) (listed : index ∈ group.2) :
      screened.AimsAt (· = region) index :=
    ((mem_group member).mp listed).aimsAt
  have parts : screened.groups = screened.groupsOf .closed ++ screened.groupsOf .opened := by
    simp [Dump.groups, Region.all]
  have first := groups
  rw [parts, List.foldlM_append] at first
  obtain ⟨sealed, closes, opens⟩ := bind_eq_ok_iff.mp first
  obtain ⟨front, idle⟩ := vetted.ready.underway.archiveGroups vetted.ready.idle (among .closed)
    closes
  obtain ⟨back, still⟩ := front.underway.archiveGroups idle (among .opened) opens
  rw [back.underway.wholes] at wholes
  obtain ⟨last, _⟩ := back.underway.archiveWholes still wholes
  have early := vetted.ready.underway.spreads_archiveGroups (among .closed) (aim .closed) closes
  have late := (front.underway.spreads_archiveGroups (among .opened) (aim .opened) opens).trans
    (back.underway.spreads_archiveWholes still wholes)
  have closing : ∀ index ∈ (screened.groupsOf .closed).flatMap (·.2), screened.Closing index := by
    intro index listed
    obtain ⟨group, member, listed⟩ := List.mem_flatMap.mp listed
    exact closing_of_grants ((mem_group member).mp listed)
  have unopened := front.unopened closing vetted.ready.unopened
  refine ⟨sealed, front.underway, unopened, early, late, fun ofClass offset => ?_⟩
  constructor
  · intro entered
    refine ⟨late.entered _ _ entered, ?_⟩
    rcases front.gained ofClass offset entered with blank | among
    · exact absurd blank (vetted.ready.blank ofClass offset)
    · exact offersAmong_groupsOf.mp among
  · rintro ⟨entered, index, grants, offers⟩
    -- What is entered for the open region or for a whole class belongs to another nomination.
    have apart : ofClass ∉ screened.wholes := by
      obtain ⟨_, _, _, _, _, apart⟩ := grants
      exact apart
    have grouped := (last.gained ofClass offset entered).resolve_right apart
    refine (back.gained ofClass offset grouped).resolve_right ?_
    intro among
    obtain ⟨other, granted, again⟩ := offersAmong_groupsOf.mp among
    rw [vetted.distinct other index ofClass offset again offers] at granted
    exact absurd (granted.inj grants).1 (by decide)

variable (blank : screened.recording.copies = ∅) {object : ObjectId}
include blank

/-- In the end, what is behind static fields that were entered is copied, and nothing else. -/
theorem mem_copies_iff_anchored : object ∈ after.recording.copies ↔
    screened.live.Anchored after.recording.ledger.Entered object := by
  obtain ⟨sealed, _, _, early, late, _⟩ := vetted.exists_sealed done
  obtain ⟨last, _⟩ := vetted.archiveScreened done
  refine ⟨fun copied => ?_, last.recorded.mem_of_anchored⟩
  obtain ⟨place, known⟩ := mem_copies_iff.mp copied
  rcases late.gained object place known with before | ⟨_, anchored⟩
  · rcases early.gained object place before with first | ⟨_, anchored⟩
    · simp [blank] at first
    · exact anchored.mono late.entered
  · exact anchored

/-- In the end, closed copies are those behind static fields that were nominated for the closed
region and entered. -/
theorem settled_iff_anchored : Settled .closed after.recording.copies object ↔
    screened.live.Anchored (screened.Closes after) object := by
  obtain ⟨sealed, underway, unopened, early, late, closes⟩ := vetted.exists_sealed done
  constructor
  · rintro ⟨place, known, closed⟩
    rcases late.gained object place known with before | ⟨opened, _⟩
    · rcases early.gained object place before with first | ⟨_, anchored⟩
      · simp [blank] at first
      · exact anchored.mono fun ofClass offset => (closes ofClass offset).mp
    · cases (closed rfl).symm.trans opened
  · intro anchored
    have copied := underway.recorded.mem_of_anchored
      (anchored.mono fun ofClass offset => (closes ofClass offset).mpr)
    obtain ⟨place, known⟩ := mem_copies_iff.mp copied
    exact ⟨place, late.kept object place known, fun _ => unopened object place known⟩

end Vetted
end Dump
end FrozenHeap
