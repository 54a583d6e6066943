import FrozenHeap.Proofs.Dump.Trials

namespace FrozenHeap

/-- A static field was tried, with this outcome. -/
structure Trial where
  ofClass : ClassId
  offset : UInt32
  outcome : Outcome Entry

def trialsOf (log : List Trial) (ofClass : ClassId) : List Trial :=
  log.filter (·.ofClass == ofClass)

/-- What a log says of a class: all trials that succeeded, in order. One that failed makes
it partial. -/
def outlineOf (log : List Trial) (ofClass : ClassId) (isPartial : Bool) : Outline where
  entries := (trialsOf log ofClass).filterMap (·.outcome.toOption)
  isPartial := isPartial || (trialsOf log ofClass).any (!·.outcome.isOk)

section Trials

variable {log : List Trial} {trial : Trial} {ofClass : ClassId} {isPartial : Bool} {entry : Entry}

theorem mem_trialsOf : trial ∈ trialsOf log ofClass ↔ trial ∈ log ∧ trial.ofClass = ofClass := by
  simp [trialsOf]

private theorem trialsOf_append (log more : List Trial) (ofClass : ClassId) :
    trialsOf (log ++ more) ofClass = trialsOf log ofClass ++ trialsOf more ofClass :=
  List.filter_append log more

private theorem trialsOf_eq_self (own : ∀ trial ∈ log, trial.ofClass = ofClass) :
    trialsOf log ofClass = log :=
  List.filter_eq_self.mpr fun trial listed => beq_iff_eq.mpr (own trial listed)

private theorem trialsOf_eq_nil (apart : ∀ trial ∈ log, trial.ofClass ≠ ofClass) :
    trialsOf log ofClass = [] :=
  List.filter_eq_nil_iff.mpr fun trial listed => by simpa using apart trial listed

private theorem outlineOf_append : outlineOf (log ++ [trial]) ofClass isPartial =
    if trial.ofClass = ofClass then
      ((outlineOf log ofClass isPartial).take trial.outcome).mark (!trial.outcome.isOk)
    else outlineOf log ofClass isPartial := by
  have single : trialsOf [trial] ofClass = if trial.ofClass = ofClass then [trial] else [] := by
    simp [trialsOf, List.filter_singleton]
  rw [outlineOf, trialsOf_append, single]
  split
  · have last : [trial].filterMap (·.outcome.toOption) = trial.outcome.toOption.toList := by
      rw [List.filterMap_cons]
      cases trial.outcome.toOption <;> rfl
    simp only [outlineOf, Outline.take, Outline.mark, List.filterMap_append, last, List.any_append,
      List.any_cons, List.any_nil, Bool.or_false, Bool.or_assoc]
  · simp only [outlineOf, List.append_nil]

private theorem mark_outlineOf :
    (outlineOf log ofClass isPartial).mark isPartial = outlineOf log ofClass isPartial := by
  cases isPartial <;> simp [outlineOf, Outline.mark]

theorem mem_entries_outlineOf : entry ∈ (outlineOf log ofClass isPartial).entries ↔
    ∃ trial ∈ log, trial.ofClass = ofClass ∧ trial.outcome = .ok entry := by
  have succeeded (outcome : Outcome Entry) :
      outcome.toOption = some entry ↔ outcome = .ok entry := by
    cases outcome <;> simp [Except.toOption]
  simp only [outlineOf, List.mem_filterMap, mem_trialsOf, succeeded, and_assoc]

theorem isPartial_outlineOf : (outlineOf log ofClass isPartial).isPartial = false ↔
    isPartial = false ∧
      ∀ trial ∈ log, trial.ofClass = ofClass → ∃ entry, trial.outcome = .ok entry := by
  have succeeded (outcome : Outcome Entry) :
      outcome.isOk = true ↔ ∃ entry, outcome = .ok entry := by
    cases outcome <;> simp [Except.isOk, Except.toBool]
  simp only [outlineOf, Bool.or_eq_false_iff, List.any_eq_false, mem_trialsOf, Bool.not_eq_true,
    Bool.not_eq_false', succeeded, and_imp]

end Trials

namespace Dump

def outline? (dump : Dump) (ofClass : ClassId) : Option Outline :=
  dump.recording.ledger.outline? ofClass

/-- A log of a dump that was screened, and the outlines that are as the log says. -/
structure Logged (screened : Dump) (log : List Trial) (dump : Dump) : Prop where
  tried : ∀ trial ∈ log, screened.Tries trial.ofClass trial.offset trial.outcome
  opened : ∀ trial ∈ log, (dump.outline? trial.ofClass).isSome = true
  outlined : ∀ ofClass outline, dump.outline? ofClass = some outline →
    outline = outlineOf log ofClass (decide (ofClass ∉ screened.wholes))
  distinct : ∀ ofClass outline, dump.outline? ofClass = some outline →
    (outline.entries.map (·.offset)).Nodup

variable {screened dump before middle after turn : Dump} {log : List Trial} {root ofClass : ClassId}
  {offset : UInt32} {outcome : Outcome Entry} {region : Region} {recording : Recording}

namespace Logged

theorem congr (logged : screened.Logged log before)
    (same : ∀ ofClass, after.outline? ofClass = before.outline? ofClass) :
    screened.Logged log after where
  tried := logged.tried
  opened trial listed := same trial.ofClass ▸ logged.opened trial listed
  outlined ofClass outline found := logged.outlined ofClass outline (same ofClass ▸ found)
  distinct ofClass outline found := logged.distinct ofClass outline (same ofClass ▸ found)

theorem trialsOf_eq_nil (logged : screened.Logged log dump) (closed : dump.outline? root = none) :
    trialsOf log root = [] := by
  refine FrozenHeap.trialsOf_eq_nil fun trial listed same => ?_
  simpa [same, closed] using logged.opened trial listed

/-- A change of one outline, to what the log says of it. -/
theorem change {more : List Trial} {outline : Outline} (logged : screened.Logged log before)
    (tried : ∀ trial ∈ more, trial.ofClass = root ∧
      screened.Tries trial.ofClass trial.offset trial.outcome)
    (here : after.outline? root = some outline)
    (others : ∀ other, other ≠ root → after.outline? other = before.outline? other)
    (outlined : outline = outlineOf (log ++ more) root (decide (root ∉ screened.wholes)))
    (distinct : (outline.entries.map (·.offset)).Nodup) : screened.Logged (log ++ more) after where
  tried trial listed := by
    rcases List.mem_append.mp listed with old | new
    · exact logged.tried trial old
    · exact (tried trial new).2
  opened trial listed := by
    by_cases same : trial.ofClass = root
    · rw [same, here]
      rfl
    · rw [others _ same]
      rcases List.mem_append.mp listed with old | new
      · exact logged.opened trial old
      · exact absurd (tried trial new).1 same
  outlined other found opened := by
    by_cases same : other = root
    · rw [same, here] at opened
      cases opened
      rw [same, outlined]
    · rw [others other same] at opened
      have unlisted : trialsOf more other = [] :=
        FrozenHeap.trialsOf_eq_nil fun trial listed here => same (here ▸ (tried trial listed).1)
      rw [logged.outlined other found opened, outlineOf, outlineOf, trialsOf_append, unlisted,
        List.append_nil]
  distinct other found opened := by
    by_cases same : other = root
    · rw [same, here] at opened
      cases opened
      exact distinct
    · exact logged.distinct other found (others other same ▸ opened)

/-- A round may start for a class, as a part unless the class is whole. -/
theorem startRound (logged : screened.Logged log before)
    (done : before.startRound root (decide (root ∉ screened.wholes)) = .ok after) :
    screened.Logged log after := by
  obtain ⟨recording, started, same⟩ := bind_eq_ok_iff.mp done
  cases same
  have here : recording.ledger.outline? root = _ := Recording.outline?_startRound started
  rw [if_pos rfl] at here
  have others (other : ClassId) (apart : other ≠ root) :
      recording.ledger.outline? other = before.outline? other := by
    rw [Recording.outline?_startRound started, if_neg apart]
    rfl
  -- The round goes on with the outline of an earlier one, which has its mark already.
  rw [← List.append_nil log]
  cases found : before.recording.ledger.outline? root with
  | none =>
    rw [found] at here
    refine logged.change (fun _ listed => absurd listed List.not_mem_nil) here others ?_ .nil
    rw [List.append_nil]
    simp [outlineOf, Outline.mark, logged.trialsOf_eq_nil found]
  | some outline =>
    rw [found, Option.getD_some, logged.outlined root outline found, mark_outlineOf,
      ← logged.outlined root outline found] at here
    refine logged.change (fun _ listed => absurd listed List.not_mem_nil) here others ?_
      (logged.distinct root outline found)
    rw [List.append_nil]
    exact logged.outlined root outline found

theorem endRound (logged : screened.Logged log before) {tally : Tally}
    (done : before.endRound = .ok (tally, after)) : screened.Logged log after := by
  obtain ⟨⟨_, recording⟩, ended, same⟩ := bind_eq_ok_iff.mp done
  cases same
  exact logged.congr fun _ => Recording.outline?_endRound ended

/-- A static field of the root in progress is tried. One that fails makes its class partial, if it
is not so anyway. -/
theorem archiveStatic (logged : screened.Logged log dump)
    (recorded : dump.recording.Truthful screened.live) (headed : dump.recording.Headed root)
    (done : dump.recording.archiveStatic screened.live screened.screening root offset region =
      .ok (outcome, recording))
    (tries : screened.Tries root offset outcome)
    (marked : ∀ other, after.outline? other =
      if other = root ∧ root ∈ screened.wholes then
        (recording.ledger.outline? root).map (·.mark (!outcome.isOk))
      else recording.ledger.outline? other) :
    screened.Logged (log ++ [⟨root, offset, outcome⟩]) after := by
  obtain ⟨tiles, intact⟩ := recorded.intact
  obtain ⟨round, current, rfl⟩ := headed.rooted
  have attempt := Recording.attempt_of_archiveStatic current done
  have change (other : ClassId) : recording.ledger.outline? other = _ :=
    attempt.outline? intact current
  obtain ⟨page, paged⟩ := Option.isSome_iff_exists.mp headed.paged
  have found : dump.recording.ledger.outline? round.root = some page.outline := by
    rw [Ledger.outline?, paged]
    rfl
  have here : after.outline? round.root =
      some ((page.outline.take outcome).mark (!outcome.isOk)) := by
    rw [marked, change, if_pos rfl, found, Option.map_some]
    split
    · rfl
    · -- What is archived field by field is partial anyway.
      rename_i apart
      have part : round.root ∉ screened.wholes := fun whole => apart ⟨rfl, whole⟩
      have old : (page.outline.take outcome).isPartial = true := by
        rw [Outline.take, logged.outlined _ _ found, outlineOf, decide_eq_true part, Bool.true_or]
      rw [Outline.mark_of_isPartial old]
  refine logged.change ?_ here (fun other apart => ?_) ?_ ?_
  · intro trial listed
    cases List.mem_singleton.mp listed
    exact ⟨rfl, tries⟩
  · rw [marked, if_neg fun same => apart same.1, change, if_neg apart]
    rfl
  · rw [outlineOf_append, if_pos rfl, ← logged.outlined _ _ found]
  · refine Outline.nodup_take (logged.distinct _ _ found) ?_
    rintro entry rfl
    exact attempt.fresh intact current found

end Logged

/-- What is to be archived for a nomination is in a log. -/
def Covers (screened : Dump) (log : List Trial) (index : Nat) : Prop :=
  ∀ ofClass offset, screened.Offers index ofClass offset →
    ∃ trial ∈ log, trial.ofClass = ofClass ∧ trial.offset = offset

theorem Covers.mono {more : List Trial} {index : Nat} (covers : screened.Covers log index)
    (within : log ⊆ more) : screened.Covers more index := by
  intro ofClass offset offers
  obtain ⟨trial, listed, same⟩ := covers ofClass offset offers
  exact ⟨trial, within listed, same⟩

/-- In its turn, a nomination that passed the screening is tried. -/
theorem Logged.archive {index : Nat} {behind : List Nat} {answer : Option Entry}
    (logged : screened.Logged log turn) (turns : screened.Turn index turn)
    (due : screened.Due index root behind turn) (done : turn.archive index = .ok (answer, after)) :
    ∃ more, screened.Logged (log ++ more) after ∧ (∀ trial ∈ more, trial.ofClass = root) ∧
      screened.Covers more index := by
  obtain ⟨_, onward⟩ := due.onward
  have underway := onward.underway
  rcases archive_cases done with ⟨_, rejected, totals, _, rfl⟩ |
    ⟨nomination, outcome, recording, totals, found, preservable, tried, _, _, rfl⟩
  · refine ⟨[], ?_, by simp, fun ofClass offset offers => ?_⟩
    · rw [List.append_nil]
      exact logged.congr fun _ => rfl
    · exact absurd (underway.offers ▸ offers) (rejected ofClass offset)
  · rw [underway.nominations] at found
    obtain ⟨offset, resolved⟩ := due.belongs nomination found
    rw [underway.live, underway.screening] at tried
    simp only [Recording.archiveNomination, resolved] at tried
    have tries := Tries.nominated turns found preservable resolved tried
    refine ⟨[⟨root, offset, outcome⟩], ?_, by simp, ?_⟩
    · refine logged.archiveStatic underway.recorded due.headed tried tries fun other => ?_
      rw [if_neg fun whole => turns.not_mem_wholes found resolved whole.2]
      rfl
    · rintro ofClass place ⟨again, present, _, same⟩
      rw [found] at present
      cases present
      rw [resolved] at same
      cases same
      exact ⟨_, List.mem_cons_self, rfl, rfl⟩

private theorem Ready.exists_log_archiveEach (ready : screened.Ready)
    {front back : List (ClassId × List Nat)} {group : ClassId × List Nat} {started archived : Dump}
    (split : screened.groups = front ++ group :: back)
    (groups : front.foldlM archiveGroup screened = .ok before)
    (starts : before.startRound group.1 true = .ok started) (logged : screened.Logged log started)
    (archives : group.2.foldlM archiveNext started = .ok archived) :
    ∃ more, screened.Logged (log ++ more) archived ∧
      (∀ trial ∈ more, trial.ofClass = group.1) ∧
        ∀ index ∈ group.2, screened.Covers more index := by
  refine foldlM_prefix
    (fun indices state => ∃ more, screened.Logged (log ++ more) state ∧
      (∀ trial ∈ more, trial.ofClass = group.1) ∧ ∀ index ∈ indices, screened.Covers more index)
    ?_ ⟨[], by rwa [List.append_nil], by simp, by simp⟩ archives
  rintro earlier index later turn next listed reached step ⟨more, logged, own, covered⟩
  obtain ⟨⟨answer, next⟩, archived, same⟩ := bind_eq_ok_iff.mp step
  cases same
  obtain ⟨last, logged, owned, covers⟩ := logged.archive
    (.intro split listed groups starts reached) (ready.due split listed groups starts reached)
      archived
  refine ⟨more ++ last, by rwa [← List.append_assoc], List.forall_mem_append.mpr ⟨own, owned⟩,
    List.forall_mem_append.mpr ⟨fun other old => ?_, fun other here => ?_⟩⟩
  · exact (covered other old).mono (List.subset_append_left _ _)
  · rw [List.mem_singleton.mp here]
    exact covers.mono (List.subset_append_right _ _)

/-- When all groups have been archived, all their nominations and nothing else have been tried. -/
theorem Ready.exists_log_archiveGroups (ready : screened.Ready)
    (blank : ∀ ofClass, screened.outline? ofClass = none)
    (done : screened.groups.foldlM archiveGroup screened = .ok after) :
    ∃ log, screened.Logged log after ∧ (∀ trial ∈ log, trial.ofClass ∉ screened.wholes) ∧
      ∀ index ∈ screened.groups.flatMap (·.2), screened.Covers log index := by
  refine foldlM_prefix
    (fun groups state => ∃ log, screened.Logged log state ∧
      (∀ trial ∈ log, trial.ofClass ∉ screened.wholes) ∧
      ∀ index ∈ groups.flatMap (·.2), screened.Covers log index) ?_ ?_ done
  · rintro front group back before after split reached step ⟨log, logged, apart, covered⟩
    obtain ⟨started, starts, step⟩ := bind_eq_ok_iff.mp step
    obtain ⟨archived, archives, step⟩ := bind_eq_ok_iff.mp step
    obtain ⟨⟨tally, ended⟩, ends, same⟩ := bind_eq_ok_iff.mp step
    cases same
    have member : group ∈ screened.groups := split ▸ List.mem_append_right _ List.mem_cons_self
    have part := not_mem_wholes_of_mem_groups member
    have opens : before.startRound group.1 (decide (group.1 ∉ screened.wholes)) = .ok started := by
      rwa [decide_eq_true part]
    obtain ⟨more, logged, own, covers⟩ :=
      ready.exists_log_archiveEach split reached starts (logged.startRound opens) archives
    refine ⟨log ++ more, logged.endRound ends,
      List.forall_mem_append.mpr ⟨apart, fun trial listed => own trial listed ▸ part⟩, ?_⟩
    rw [List.flatMap_append, List.flatMap_singleton]
    exact List.forall_mem_append.mpr
      ⟨fun index old => (covered index old).mono (List.subset_append_left _ _),
        fun index here => (covers index here).mono (List.subset_append_right _ _)⟩
  · refine ⟨[], ⟨by simp, by simp, fun ofClass outline found => ?_,
      fun ofClass outline found => ?_⟩, by simp, by simp⟩
    · rw [blank] at found
      cases found
    · rw [blank] at found
      cases found

private theorem Logged.archiveField {field : StaticField} (logged : screened.Logged log turn)
    (ready : screened.Ready) (turns : screened.WholeTurn root field turn)
    (done : turn.archiveStatic root field = .ok after) :
    ∃ outcome, screened.Logged (log ++ [⟨root, field.offset, outcome⟩]) after := by
  obtain ⟨underway, headed⟩ := turns.underway ready
  obtain ⟨⟨outcome, recording⟩, tried, done⟩ := bind_eq_ok_iff.mp done
  rw [underway.live, underway.screening] at tried
  obtain ⟨_, rooted⟩ := underway.recorded.archiveStatic headed.rooted tried
  refine ⟨outcome, logged.archiveStatic underway.recorded headed tried (.whole turns rfl tried)
    fun other => ?_⟩
  simp only [turns.mem_wholes, and_true]
  cases outcome with
  | error failure =>
    cases done
    exact Recording.outline?_markPartial rooted
  | ok entry =>
    cases done
    simp only [Except.isOk, Except.toBool, Bool.not_true, Outline.mark_false, Option.map_id']
    split
    · rename_i here
      rw [here]
      rfl
    · rfl

/-- A whole class that passed the screening has all its static fields tried, in order; one that did
not has none tried. -/
theorem Ready.exists_log_archiveWhole (ready : screened.Ready) {front back : List ClassId}
    {grouped : Dump} {shape : ClassShape}
    (groups : screened.groups.foldlM archiveGroup screened = .ok grouped)
    (split : screened.wholes = front ++ root :: back)
    (wholes : front.foldlM archiveWhole grouped = .ok before)
    (known : screened.live.shapeOf root = .ok shape) (logged : screened.Logged log before)
    (done : before.archiveWhole root = .ok after) :
    ∃ more, screened.Logged (log ++ more) after ∧ (∀ trial ∈ more, trial.ofClass = root) ∧
      (screened.isPreservableClass root = true →
        more.map (·.offset) = shape.statics.toList.map (·.offset)) := by
  obtain ⟨first, idle⟩ := ready.archiveGroups groups
  obtain ⟨classes, _⟩ := first.underway.archiveWholes idle wholes
  obtain ⟨_, found, done⟩ := bind_eq_ok_iff.mp done
  rw [classes.underway.live, known] at found
  cases found
  have verdict : before.isPreservableClass root = screened.isPreservableClass root := by
    rw [isPreservableClass, classes.underway.screening]
    rfl
  simp only [verdict] at done
  split at done
  · rename_i passed
    obtain ⟨started, starts, done⟩ := bind_eq_ok_iff.mp done
    obtain ⟨archived, archives, done⟩ := bind_eq_ok_iff.mp done
    obtain ⟨⟨tally, ended⟩, ends, same⟩ := bind_eq_ok_iff.mp done
    cases same
    have whole : root ∈ screened.wholes := split ▸ List.mem_append_right _ List.mem_cons_self
    have opens : before.startRound root (decide (root ∉ screened.wholes)) = .ok started := by
      rwa [decide_eq_false (not_not_intro whole)]
    have step (earlier : List StaticField) (field : StaticField) (later : List StaticField)
        (turn next : Dump) (listed : shape.statics.toList = earlier ++ field :: later)
        (reached : earlier.foldlM (·.archiveStatic root ·) started = .ok turn)
        (step : turn.archiveStatic root field = .ok next) :
        (∃ more, screened.Logged (log ++ more) turn ∧ (∀ trial ∈ more, trial.ofClass = root) ∧
          more.map (·.offset) = earlier.map (·.offset)) →
        ∃ more, screened.Logged (log ++ more) next ∧ (∀ trial ∈ more, trial.ofClass = root) ∧
          more.map (·.offset) = (earlier ++ [field]).map (·.offset) := by
      rintro ⟨more, logged, own, offsets⟩
      obtain ⟨outcome, logged⟩ := logged.archiveField ready
        (.intro groups split wholes passed known listed starts reached) step
      refine ⟨more ++ [⟨root, field.offset, outcome⟩], by rwa [← List.append_assoc],
        List.forall_mem_append.mpr ⟨own, by simp⟩, ?_⟩
      rw [List.map_append, List.map_append, offsets]
      rfl
    obtain ⟨more, logged, own, offsets⟩ := foldlM_prefix _ step
      ⟨[], by simpa using logged.startRound opens, by simp, rfl⟩ archives
    exact ⟨more, logged.endRound ends, own, fun _ => offsets⟩
  · rename_i rejected
    cases done
    refine ⟨[], ?_, by simp, fun passed => absurd passed rejected⟩
    rw [List.append_nil]
    exact logged.congr fun _ => rfl

/-- The static fields of a whole class that passed the screening are in a log, in order. -/
def Enumerates (screened : Dump) (log : List Trial) (ofClass : ClassId) : Prop :=
  screened.isPreservableClass ofClass = true → ∀ shape, screened.live.shapeOf ofClass = .ok shape →
    (trialsOf log ofClass).map (·.offset) = shape.statics.toList.map (·.offset)

theorem Enumerates.congr {more : List Trial} (enumerates : screened.Enumerates log ofClass)
    (same : trialsOf more ofClass = trialsOf log ofClass) : screened.Enumerates more ofClass := by
  unfold Enumerates
  rwa [same]

/-- Where all whole classes have been archived, their static fields have been tried,
class by class. -/
theorem Vetted.exists_log_archiveWholes (vetted : screened.Vetted) {grouped : Dump}
    (groups : screened.groups.foldlM archiveGroup screened = .ok grouped)
    (logged : screened.Logged log grouped) (apart : ∀ trial ∈ log, trial.ofClass ∉ screened.wholes)
    (done : screened.wholes.foldlM archiveWhole grouped = .ok after) :
    ∃ more, screened.Logged (log ++ more) after ∧
      ∀ ofClass ∈ screened.wholes, screened.Enumerates (log ++ more) ofClass := by
  have step (front : List ClassId) (root : ClassId) (back : List ClassId) (before after : Dump)
      (split : screened.wholes = front ++ root :: back)
      (reached : front.foldlM archiveWhole grouped = .ok before)
      (step : before.archiveWhole root = .ok after) :
      (∃ more, screened.Logged (log ++ more) before ∧ (∀ trial ∈ more, trial.ofClass ∈ front) ∧
        ∀ ofClass ∈ front, screened.Enumerates more ofClass) →
      ∃ more, screened.Logged (log ++ more) after ∧
        (∀ trial ∈ more, trial.ofClass ∈ front ++ [root]) ∧
        ∀ ofClass ∈ front ++ [root], screened.Enumerates more ofClass := by
    rintro ⟨more, logged, among, enumerates⟩
    have known := Live.shapeOf_eq
      (vetted.known root (split ▸ List.mem_append_right _ List.mem_cons_self))
    obtain ⟨last, logged, own, offsets⟩ :=
      vetted.ready.exists_log_archiveWhole groups split reached known logged step
    have fresh : root ∉ front := by
      have once := vetted.once
      rw [split, List.nodup_middle, List.nodup_cons, List.mem_append, not_or] at once
      exact once.1.1
    refine ⟨more ++ last, by rwa [← List.append_assoc], List.forall_mem_append.mpr
      ⟨fun trial listed => List.mem_append_left _ (among trial listed), fun trial listed => ?_⟩,
      List.forall_mem_append.mpr ⟨fun ofClass old => ?_, fun ofClass here => ?_⟩⟩
    · rw [own trial listed]
      exact List.mem_append_right _ List.mem_cons_self
    · have unlisted : trialsOf last ofClass = [] :=
        trialsOf_eq_nil fun trial listed same => fresh (own trial listed ▸ same ▸ old)
      refine (enumerates ofClass old).congr ?_
      rw [trialsOf_append, unlisted, List.append_nil]
    · rw [List.mem_singleton.mp here]
      intro passed other found
      rw [known] at found
      cases found
      have unlisted : trialsOf more root = [] :=
        trialsOf_eq_nil fun trial listed same => fresh (same ▸ among trial listed)
      rw [trialsOf_append, unlisted, trialsOf_eq_self own, List.nil_append, offsets passed]
  obtain ⟨more, logged, _, enumerates⟩ := foldlM_prefix _ step
    ⟨[], by rwa [List.append_nil], by simp, by simp⟩ done
  refine ⟨more, logged, fun ofClass whole => (enumerates ofClass whole).congr ?_⟩
  have unlisted : trialsOf log ofClass = [] :=
    trialsOf_eq_nil fun trial listed same => apart trial listed (same ▸ whole)
  rw [trialsOf_append, unlisted, List.nil_append]

end Dump
end FrozenHeap
