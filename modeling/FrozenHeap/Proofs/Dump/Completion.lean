import FrozenHeap.Proofs.Dump.Wholes
import FrozenHeap.Proofs.Recording.Room

namespace FrozenHeap.Dump

/-- An upper bound of all that archiving what was nominated counts. -/
def workload (screened : Dump) : Nat :=
  (screened.groups.map fun group => screened.toll group.2.length).sum +
    (screened.wholes.map fun ofClass => screened.toll (screened.staticCount ofClass)).sum

/-- What archiving all does after the screening. -/
def archiveScreened (screened : Dump) : Run Dump := do
  let dump ← screened.groups.foldlM archiveGroup screened
  dump.wholes.foldlM archiveWhole dump

theorem archiveAll_eq (dump : Dump) : dump.archiveAll = dump.screen >>= archiveScreened := rfl

/-- A dump that was screened with care. -/
structure Vetted (screened : Dump) : Prop where
  ready : screened.Ready
  closed : screened.live.Closed
  /-- Resolved nominations stand for static fields. -/
  declared : ∀ (index : Nat) (nomination : Nomination) (ofClass : ClassId) (offset : UInt32),
    screened.nominations[index]? = some nomination → nomination.resolved = some (ofClass, offset) →
      ofClass.index < screened.live.classes.size ∧
        ∃ slot, screened.live.static? ofClass offset = some slot
  /-- No two of those that are to be archived are for the same field. -/
  distinct : ∀ index other ofClass offset, screened.Offers index ofClass offset →
    screened.Offers other ofClass offset → index = other
  /-- Everything behind their fields may be archived. -/
  clears : ∀ index ofClass offset, screened.Offers index ofClass offset →
    screened.screening.Clears screened.live (ofClass, offset)
  known : ∀ ofClass ∈ screened.wholes, ofClass.index < screened.live.classes.size
  once : screened.wholes.Nodup

variable {screened before turn after : Dump} {index : Nat} {nomination : Nomination}
  {root ofClass : ClassId} {offset : UInt32} {behind : List Nat}

/-- In its turn, the field of a nomination has no entry yet. -/
theorem Due.unentered (due : screened.Due index root behind turn) (vetted : screened.Vetted)
    (offers : screened.Offers index ofClass offset) :
    ¬ turn.recording.ledger.Entered ofClass offset := by
  intro entered
  obtain ⟨_, onward⟩ := due.onward
  rcases onward.gained ofClass offset entered with early | ⟨other, member, again⟩
  · exact vetted.ready.blank ofClass offset early
  · exact due.others (vetted.distinct index other ofClass offset offers again ▸ member)

/-- In its turn, a nomination that passed the screening ends in an entry, or overflows its region if
what it adds finds no room there. -/
theorem Due.hinges (due : screened.Due index root behind turn) (vetted : screened.Vetted)
    (found : screened.nominations[index]? = some nomination)
    (preservable : nomination.isPreservable = true)
    (resolved : nomination.resolved = some (ofClass, offset)) :
    ∃ outcome recording,
      turn.recording.archiveNomination screened.live screened.screening nomination =
        .ok (outcome, recording) ∧
      HingesOn (turn.recording.Overfills screened.live nomination.region (ofClass, offset))
        nomination.region turn.recording.draft.capacity outcome := by
  have offers : screened.Offers index ofClass offset := ⟨nomination, found, preservable, resolved⟩
  obtain ⟨_, onward⟩ := due.onward
  obtain ⟨tiles, intact⟩ := onward.underway.recorded.intact
  obtain ⟨_, owned⟩ := due.belongs nomination found
  rw [resolved] at owned
  cases owned
  obtain ⟨known, declared⟩ := vetted.declared index nomination _ _ found resolved
  -- Turns for the closed region come first, so that nothing is open yet that one could refer to.
  have unbarred (closed : nomination.region = .closed) : Unopened turn.recording.copies := by
    refine onward.unopened (due.closing fun other again => ?_) vetted.ready.unopened
    rw [found] at again
    cases again
    exact closed
  obtain ⟨round, current, rfl⟩ := due.headed.rooted
  obtain ⟨outcome, recording, archived, _⟩ := intact.exists_archiveStatic vetted.closed
    current known
    (Ledger.free_iff.mpr (due.unentered vetted offers)) screened.screening nomination.region
  have attempt := Recording.attempt_of_archiveStatic current archived
  refine ⟨outcome, recording, ?_, attempt.hinges intact current unbarred declared
    (vetted.clears index _ _ offers)⟩
  simp only [Recording.archiveNomination, resolved]
  exact archived

private theorem Due.exists_archive (due : screened.Due index root behind turn)
    (vetted : screened.Vetted) :
    ∃ answer after, turn.archive index = .ok (answer, after) := by
  obtain ⟨_, onward⟩ := due.onward
  unfold Dump.archive
  rw [onward.underway.nominations, onward.underway.live, onward.underway.screening]
  cases found : screened.nominations[index]? with
  | none => exact ⟨_, _, rfl⟩
  | some nomination =>
    by_cases preservable : nomination.isPreservable = true
    · obtain ⟨offset, resolved⟩ := due.belongs nomination found
      obtain ⟨outcome, recording, archived, _⟩ := due.hinges vetted found preservable resolved
      simp only [if_pos preservable, archived, bind, Except.bind]
      cases outcome with
      | error failure => exact ⟨_, _, rfl⟩
      | ok entry => exact ⟨_, _, rfl⟩
    · simp only [if_neg preservable]
      exact ⟨_, _, rfl⟩

/-- In its turn, a nomination that passed the screening is answered with an entry exactly if its
field does not overfill its region. -/
theorem Due.isSome_iff (due : screened.Due index root behind turn) (vetted : screened.Vetted)
    (found : screened.nominations[index]? = some nomination)
    (preservable : nomination.isPreservable = true)
    (resolved : nomination.resolved = some (ofClass, offset)) {answer : Option Entry}
    (done : turn.archive index = .ok (answer, after)) : answer.isSome = true ↔
      ¬ turn.recording.Overfills screened.live nomination.region (ofClass, offset) := by
  obtain ⟨outcome, recording, archived, hinges⟩ := due.hinges vetted found preservable resolved
  obtain ⟨_, onward⟩ := due.onward
  have here := onward.underway.nominations ▸ found
  rcases archive_cases done with ⟨_, rejected, _⟩ | ⟨other, _, _, _, again, _, tried, same, _⟩
  · exact absurd ⟨nomination, here, preservable, resolved⟩ (rejected ofClass offset)
  · rw [here] at again
    cases again
    rw [onward.underway.live, onward.underway.screening, archived] at tried
    cases tried
    rw [same]
    cases outcome with
    | ok entry => simp [show ¬ _ from hinges]
    | error failure => simp [hinges.1]

/-- A field that is offered in a group is not one of a whole class. -/
theorem not_mem_wholes
    (offers : screened.OffersAmong (screened.groups.flatMap (·.2)) ofClass offset) :
    ofClass ∉ screened.wholes := by
  obtain ⟨index, listed, nomination, found, _, resolved⟩ := offers
  obtain ⟨group, member, listed⟩ := List.mem_flatMap.mp listed
  obtain ⟨_, owned⟩ := grouped_of_mem_groups member index listed nomination found
  rw [resolved] at owned
  cases owned
  exact not_mem_wholes_of_mem_groups member

namespace Vetted

variable (vetted : screened.Vetted)
include vetted

private theorem known_of_mem_groups {group : ClassId × List Nat}
    (member : group ∈ screened.groups) :
    group.1.index < screened.live.classes.size := by
  obtain ⟨region, _, member⟩ := List.mem_flatMap.mp member
  obtain ⟨index, listed⟩ := exists_mem_group member
  obtain ⟨nomination, offset, found, resolved, _⟩ := (mem_group member).mp listed
  exact (vetted.declared index nomination _ offset found resolved).1

private theorem exists_archiveGroup {front back : List (ClassId × List Nat)}
    {group : ClassId × List Nat}
    (small : screened.workload < UInt64.size) (split : screened.groups = front ++ group :: back)
    (groups : front.foldlM Dump.archiveGroup screened = .ok before) :
    ∃ after, before.archiveGroup group = .ok after := by
  have member : group ∈ screened.groups := split ▸ List.mem_append_right _ List.mem_cons_self
  obtain ⟨first, idle⟩ := vetted.ready.underway.archiveGroups vetted.ready.idle
    (fun other listed => split ▸ List.mem_append_left _ listed) groups
  obtain ⟨started, starts⟩ :=
    first.underway.exists_startRound idle (vetted.known_of_mem_groups member) true
  obtain ⟨start, headed⟩ := first.underway.startRound starts
  have step (earlier : List Nat) (index : Nat) (later : List Nat) (turn : Dump)
      (listed : group.2 = earlier ++ index :: later)
      (archives : earlier.foldlM archiveNext started = .ok turn) :
      ∃ next, turn.archiveNext index = .ok next := by
    obtain ⟨root, behind, due⟩ := (Turn.intro split listed groups starts archives).due vetted.ready
    obtain ⟨answer, next, archived⟩ := due.exists_archive vetted
    exact ⟨next, bind_eq_ok_iff.mpr ⟨_, archived, rfl⟩⟩
  obtain ⟨archived, archives⟩ := exists_foldlM step
  obtain ⟨turns, headed⟩ := start.underway.archiveEach headed (grouped_of_mem_groups member)
    archives
  have share : (front.map fun group => screened.toll group.2.length).sum +
      screened.toll group.2.length ≤ screened.workload := by
    rw [workload, split, List.map_append, List.map_cons, List.sum_append, List.sum_cons]
    omega
  have bound : archived.recording.spent + 1 < UInt64.size := by
    have none_ := vetted.ready.unspent
    have fronts := first.spent
    have same := start.spent
    have fields := turns.spent
    unfold toll at share fronts
    omega
  obtain ⟨tally, ended, ends⟩ := exists_endRound headed bound
  exact ⟨ended, bind_eq_ok_iff.mpr ⟨started, starts, bind_eq_ok_iff.mpr ⟨archived, archives,
    bind_eq_ok_iff.mpr ⟨(tally, ended), ends, rfl⟩⟩⟩⟩

/-- After the groups and the whole classes in front of it, a whole class is archived. -/
theorem exists_archiveWhole {front back : List ClassId} {grouped : Dump}
    (small : screened.workload < UInt64.size) (split : screened.wholes = front ++ ofClass :: back)
    (groups : screened.groups.foldlM Dump.archiveGroup screened = .ok grouped)
    (wholes : front.foldlM Dump.archiveWhole grouped = .ok before) :
    ∃ after, before.archiveWhole ofClass = .ok after := by
  have member : ofClass ∈ screened.wholes := split ▸ List.mem_append_right _ List.mem_cons_self
  obtain ⟨fields, idle⟩ := vetted.ready.archiveGroups groups
  obtain ⟨classes, idle⟩ := fields.underway.archiveWholes idle wholes
  refine classes.underway.exists_archiveWhole vetted.closed idle (vetted.known ofClass member)
    (fun offset entered => ?_) ?_
  · -- Groups enter no fields of whole classes, and each whole class comes once.
    rcases classes.gained ofClass offset entered with early | again
    · rcases fields.gained ofClass offset early with first | offers
      · exact vetted.ready.blank ofClass offset first
      · exact not_mem_wholes offers member
    · have distinct := vetted.once
      rw [split, List.nodup_middle, List.nodup_cons] at distinct
      exact distinct.1 (List.mem_append_left _ again)
  · have none_ := vetted.ready.unspent
    have first := fields.spent
    have second := classes.spent
    have share : (front.map fun ofClass => screened.toll (screened.staticCount ofClass)).sum +
        screened.toll (screened.staticCount ofClass) ≤
        (screened.wholes.map fun ofClass => screened.toll (screened.staticCount ofClass)).sum := by
      rw [split, List.map_append, List.map_cons, List.sum_append, List.sum_cons]
      omega
    unfold workload at small
    omega

/-- All that was nominated is archived, as long as the counts stay below 64 bits. -/
theorem exists_archiveScreened (small : screened.workload < UInt64.size) :
    ∃ after, screened.archiveScreened = .ok after := by
  have fields : ∃ grouped, screened.groups.foldlM archiveGroup screened = .ok grouped :=
    exists_foldlM fun _ _ _ _ split reached => vetted.exists_archiveGroup small split reached
  obtain ⟨grouped, groups⟩ := fields
  have classes : ∃ after, screened.wholes.foldlM archiveWhole grouped = .ok after :=
    exists_foldlM fun _ _ _ _ split reached => vetted.exists_archiveWhole small split groups reached
  obtain ⟨after, wholes⟩ := classes
  obtain ⟨onward, _⟩ := vetted.ready.archiveGroups groups
  exact ⟨after, bind_eq_ok_iff.mpr ⟨grouped, groups, by rw [onward.underway.wholes]; exact wholes⟩⟩

theorem archiveScreened (done : screened.archiveScreened = .ok after) :
    screened.Underway after ∧ after.recording.current = none := by
  obtain ⟨grouped, groups, wholes⟩ := bind_eq_ok_iff.mp done
  obtain ⟨onward, idle⟩ := vetted.ready.archiveGroups groups
  rw [onward.underway.wholes] at wholes
  obtain ⟨last, still⟩ := onward.underway.archiveWholes idle wholes
  exact ⟨last.underway, still⟩

/-- A nomination gets its turn, and what it is answered there decides whether its field is entered
when all groups have been archived. -/
theorem entered_grouped {region : Region} (grants : screened.Grants region root index)
    (offers : screened.Offers index ofClass offset)
    (groups : screened.groups.foldlM archiveGroup screened = .ok after) :
    ∃ turn answer next, screened.Turn index turn ∧ turn.archive index = .ok (answer, next) ∧
      (after.recording.ledger.Entered ofClass offset ↔ answer.isSome = true) := by
  obtain ⟨turn, answer, next, ahead, _, turns, archive, apart, rest⟩ :=
    vetted.ready.exists_turn grants groups
  obtain ⟨_, _, due⟩ := turns.due vetted.ready
  obtain ⟨_, reached⟩ := due.onward
  have turned := reached.underway.archive due.headed due.belongs archive
  refine ⟨turn, answer, next, turns, archive, fun entered => ?_, fun passed => ?_⟩
  · -- What comes behind the turn enters other fields only.
    rcases rest.gained ofClass offset entered with early | ⟨other, listed, again⟩
    · exact (((turned.entered ofClass offset).mp early).resolve_left
        (due.unentered vetted offers)).1
    · exact absurd (vetted.distinct index other ofClass offset offers again ▸ listed) apart
  · exact rest.kept _ _ ((turned.entered ofClass offset).mpr (.inr ⟨passed, offers⟩))

/-- What the whole classes add to what the groups leave are fields of whole classes. -/
theorem entered_wholes {grouped : Dump}
    (groups : screened.groups.foldlM archiveGroup screened = .ok grouped)
    (wholes : grouped.wholes.foldlM archiveWhole grouped = .ok after)
    (apart : ofClass ∉ screened.wholes) :
    after.recording.ledger.Entered ofClass offset ↔
      grouped.recording.ledger.Entered ofClass offset := by
  obtain ⟨fields, idle⟩ := vetted.ready.archiveGroups groups
  rw [fields.underway.wholes] at wholes
  obtain ⟨classes, _⟩ := fields.underway.archiveWholes idle wholes
  exact ⟨fun entered => (classes.gained ofClass offset entered).resolve_right apart,
    classes.kept ofClass offset⟩

/-- What is entered in the end for a class that is not whole was to be archived. -/
theorem exists_offers (done : screened.archiveScreened = .ok after)
    (apart : ofClass ∉ screened.wholes) (entered : after.recording.ledger.Entered ofClass offset) :
    ∃ index, screened.Offers index ofClass offset := by
  obtain ⟨grouped, groups, wholes⟩ := bind_eq_ok_iff.mp done
  obtain ⟨onward, _⟩ := vetted.ready.archiveGroups groups
  rw [vetted.entered_wholes groups wholes apart] at entered
  rcases onward.gained ofClass offset entered with early | ⟨index, _, offers⟩
  · exact absurd early (vetted.ready.blank ofClass offset)
  · exact ⟨index, offers⟩

/-- A field that passed the screening, of a class that is not whole, is entered in the end exactly
if it does not overfill its region in its turn. -/
theorem exists_turn_entered_iff (done : screened.archiveScreened = .ok after)
    (apart : ofClass ∉ screened.wholes) (found : screened.nominations[index]? = some nomination)
    (preservable : nomination.isPreservable = true)
    (resolved : nomination.resolved = some (ofClass, offset)) :
    ∃ turn, screened.Turn index turn ∧ (after.recording.ledger.Entered ofClass offset ↔
      ¬ turn.recording.Overfills screened.live nomination.region (ofClass, offset)) := by
  obtain ⟨grouped, groups, wholes⟩ := bind_eq_ok_iff.mp done
  have grants : screened.Grants nomination.region ofClass index :=
    ⟨nomination, offset, found, resolved, rfl, apart⟩
  obtain ⟨turn, answer, next, turns, archive, entered⟩ :=
    vetted.entered_grouped grants ⟨nomination, found, preservable, resolved⟩ groups
  obtain ⟨root, behind, due⟩ := turns.due vetted.ready
  refine ⟨turn, turns, ?_⟩
  rw [vetted.entered_wholes groups wholes apart, entered]
  exact due.isSome_iff vetted found preservable resolved archive

end Vetted

end FrozenHeap.Dump
