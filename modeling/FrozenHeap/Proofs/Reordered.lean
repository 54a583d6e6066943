import FrozenHeap.Proofs.Dump.Concurring

/-! Reordered requests. Static fields may be asked for in any order: where no walk overflows a
region, the same objects are archived, each in the same region, and the tables say the same. -/

namespace FrozenHeap

/-- The same fields are asked for in any order, each once, and the same whole classes
in one order. -/
structure Registration.Reorders (one two : List Registration) : Prop where
  same : one.Perm two
  wholes : one.filterMap whole? = two.filterMap whole?
  distinct : ((one.filterMap nomination?).map Nomination.names).Nodup

theorem Registration.Reorders.symm {one two : List Registration} (reorders : Reorders one two) :
    Reorders two one where
  same := reorders.same.symm
  wholes := reorders.wholes.symm
  distinct := ((reorders.same.filterMap _).map _).nodup_iff.mp reorders.distinct

namespace Dump

variable {settings : Settings} {live : Live} {requests others : List Registration}
  {asked screened dump sought sifted latter : Dump} {ofClass : ClassId} {offset : UInt32}

/-- All that was asked for and passed the screening is archived. -/
def Fulfils (dump : Dump) : Prop :=
  (∀ nomination ∈ dump.nominations, nomination.isPreservable = true →
    ∀ field ∈ nomination.resolved, dump.recording.ledger.Entered field.1 field.2) ∧
  ∀ ofClass ∈ dump.wholes, dump.isPreservableClass ofClass = true →
    ∀ shape ∈ (dump.live.shapeOf ofClass).toOption, ∀ field ∈ shape.statics,
      dump.recording.ledger.Entered ofClass field.offset

instance (ledger : Ledger) (ofClass : ClassId) (offset : UInt32) :
    Decidable (ledger.Entered ofClass offset) :=
  inferInstanceAs (Decidable (∃ page ∈ ledger.pages, page.ofClass = ofClass ∧
    ∃ entry ∈ page.entries, entry.offset = offset))

instance (dump : Dump) : Decidable dump.Fulfils :=
  inferInstanceAs (Decidable (_ ∧ _))

namespace Passes

variable (passes : Passes settings live requests asked screened dump)
include passes

theorem bucketSize_eq : dump.bucketSize = settings.bucketSize.toNat := by
  have recorded := (Continues.archiveScreened passes.archived).same
  have same : screened.bucketSize = asked.bucketSize := by
    rcases screen_ok passes.screening with ⟨_, rfl⟩ | ⟨_, _, _, _, _, _, rfl⟩ <;> rfl
  rw [recorded]
  exact same.trans passes.took.bucketSize

/-- A nomination that was judged is one that was asked for. -/
theorem exists_asked {index : Nat} {judged : Nomination}
    (found : screened.nominations[index]? = some judged)
    (resolved : judged.resolved = some (ofClass, offset)) : ∃ nomination field,
      nomination ∈ requests.filterMap Registration.nomination? ∧
      live.Declares nomination.className nomination.fieldName ofClass field ∧
      field.offset = offset ∧ judged.region = nomination.region := by
  obtain ⟨nomination, member, judges⟩ := exists_left_of_forall₂ passes.screens.judged judged
    (Array.mem_toList_iff.mpr (Array.mem_of_getElem? found))
  obtain ⟨field, declares, _, position⟩ :=
    Nomination.field?_eq_some_iff.mp (judges.resolved.symm.trans resolved)
  exact ⟨nomination, field, passes.took.nominated nomination (Array.mem_toList_iff.mp member),
    passes.took.heap ▸ declares, position, judges.region⟩

/-- A static field is assigned to the closed region if it was asked for there, and its
class was not. -/
theorem assigns_closed_iff
    (distinct : ((requests.filterMap Registration.nomination?).map Nomination.names).Nodup) :
    screened.Assigns ofClass offset .closed ↔ ∃ className fieldName field,
      Registration.field className fieldName .closed ∈ requests ∧
      Registration.whole className ∉ requests ∧
      live.Declares className fieldName ofClass field ∧ field.offset = offset ∧
      ∃ region, screened.Assigns ofClass offset region := by
  have whole {className : String} (named : live.classNamed? className = some ofClass) :
      ofClass ∈ screened.wholes ↔ Registration.whole className ∈ requests :=
    (passes.screens.mem_wholes_iff (passes.took.heap.symm ▸ named)).trans passes.took.mem_wholeNames
  constructor
  · intro assigns
    have assigned : ∃ region, screened.Assigns ofClass offset region := ⟨_, assigns⟩
    cases assigns with
    | nominated found _ resolved here apart =>
      obtain ⟨nomination, field, asks, declares, position, same⟩ :=
        passes.exists_asked found resolved
      obtain ⟨request, member, made⟩ := List.mem_filterMap.mp asks
      obtain ⟨className, fieldName, region, rfl, rfl⟩ :=
        Registration.nomination?_eq_some_iff.mp made
      obtain rfl : region = .closed := same.symm.trans here
      exact ⟨className, fieldName, field, member, fun asked => apart ((whole declares.1).mpr asked),
        declares, position, assigned⟩
    | whole _ _ _ _ _ _ opened => cases opened
  · rintro ⟨className, fieldName, field, member, apart, declares, position, region, assigns⟩
    cases assigns with
    | whole among => exact absurd ((whole declares.1).mp among) apart
    | nominated found passed resolved here aside =>
      obtain ⟨nomination, other, asks, again, there, same⟩ := passes.exists_asked found resolved
      -- No two requests are for one field, so that this nomination is the one for the closed
      -- region.
      obtain ⟨owner, title⟩ := again.names_eq declares (there.trans position.symm)
      have closing : Nomination.of className fieldName .closed ∈
          requests.filterMap Registration.nomination? := List.mem_filterMap.mpr ⟨_, member, rfl⟩
      have one := List.inj_on_of_nodup_map distinct asks closing (Prod.ext owner title)
      exact .nominated found passed resolved (same.trans (congrArg Nomination.region one)) aside

variable (closed : live.Closed)
include closed

theorem concludes (bounded : settings.Bounded) (room : ¬ screened.Overflows) :
    screened.Concludes dump := by
  have recording := passes.screens.recording
  have listed : screened.recording.Listed screened.live := by
    rw [recording, passes.heap]
    exact passes.started bounded
  have blank : screened.recording.copies = ∅ := by
    obtain ⟨draft, _, start⟩ := passes.took.recording
    rw [recording, start]
    rfl
  exact {
    vetted := passes.vetted closed
    done := passes.archived
    completes := passes.exists_log closed
    listed := passes.heap.symm ▸ passes.listed bounded
    recorded := passes.heap.symm ▸ passes.recorded
    admits := admits_archiveScreened listed blank passes.archived
    blank := blank
    room := room }

/-- Dumps that were asked for the same in another order concur. -/
theorem concurs (again : Passes settings live others sought sifted latter)
    (reorders : Registration.Reorders requests others) : screened.Concurs sifted := by
  have heap : sought.live = asked.live := again.took.heap.trans passes.took.heap.symm
  have names : sought.wholeNames.toList = asked.wholeNames.toList := by
    rw [again.took.wholes, passes.took.wholes, reorders.wholes]
  have screening : sought.screening = asked.screening :=
    again.took.screening.trans passes.took.screening.symm
  have nominated (nomination : Nomination) :
      nomination ∈ sought.nominations.toList ↔ nomination ∈ asked.nominations.toList := by
    rw [Array.mem_toList_iff, Array.mem_toList_iff, again.took.mem_nominations
      reorders.symm.distinct,
      passes.took.mem_nominations reorders.distinct, (reorders.same.filterMap _).mem_iff]
  obtain ⟨classes, checked, verdicts, excluded⟩ :=
    passes.requested.exists_classes (passes.took.heap.symm ▸ closed) passes.screening
  obtain ⟨_, also, settled, barred⟩ :=
    again.requested.exists_classes (again.took.heap.symm ▸ closed) again.screening
  rw [screening, heap, names, checked] at also
  cases also
  have same := settled.trans verdicts.symm
  have alike := barred.trans excluded.symm
  refine ⟨?_, ?_, same, alike, fun ofClass offset region => ?_⟩
  · exact again.heap.trans passes.heap.symm
  · rw [again.screens.wholes, passes.screens.wholes, heap, names]
  · rw [passes.screens.bids_iff, again.screens.bids_iff, heap]
    simp only [Screening.Clears, Screening.admissible_congr same alike, nominated]

/-- Where all that may be archived is archived in the end, no walk has overflowed a region. -/
theorem not_overflows (fulfils : dump.Fulfils) : ¬ screened.Overflows := by
  rintro ⟨ofClass, offset, region, capacity, tries⟩
  have vetted := passes.vetted closed
  obtain ⟨log, completes⟩ := passes.exists_log closed
  obtain ⟨nominated, whole⟩ := fulfils
  rw [(Continues.archiveScreened passes.archived).same] at nominated whole
  suffices entered : dump.recording.ledger.Entered ofClass offset by
    obtain ⟨entry, succeeds⟩ := (completes.entered_iff vetted).mp entered
    cases tries.unique vetted succeeds
  cases tries with
  | nominated _ found passed resolved =>
    exact nominated _ (Array.mem_of_getElem? found) passed _ resolved
  | whole turns here =>
    obtain ⟨shape, known, declared⟩ := turns.exists_shape
    exact here ▸ whole ofClass turns.mem_wholes turns.passed shape (by rw [known]; rfl) _ declared

end Passes

/-- A dump ends in an archive exactly if its roster has a table. -/
theorem exists_roster {outcome : Outcome Dumped} (done : dump.finish = .ok outcome) :
    ∃ roster, rosterOf dump.recording.ledger = .ok roster ∧
      ((∃ dumped, outcome = .ok dumped) ↔ (roster.toBytes dump.bucketSize).isOk = true) := by
  obtain ⟨recorded, ended, done⟩ := bind_eq_ok_iff.mp done
  obtain ⟨_, _, same⟩ := bind_eq_ok_iff.mp ended
  cases same
  obtain ⟨roster, gathered, done⟩ := bind_eq_ok_iff.mp done
  refine ⟨roster, gathered, ?_⟩
  simp only at done
  split at done <;> rename_i written <;> cases done <;> simp [written, Except.isOk, Except.toBool]

/-- Dumps that concur end in archives or fail, both of them, and their tables are alike. -/
theorem alike_of_finish {one two former latter : Dump} (first : one.Concludes former)
    (second : two.Concludes latter) (concurs : one.Concurs two)
    (size : former.bucketSize = latter.bucketSize) {outcome other : Outcome Dumped}
    (done : former.finish = .ok outcome) (ended : latter.finish = .ok other) :
    ((∃ dumped, outcome = .ok dumped) ↔ ∃ dumped, other = .ok dumped) ∧
      ∀ dumped again, outcome = .ok dumped → other = .ok again → ∃ table like,
        RecordTable.ofBytes dumped.archive.table = .ok table ∧
        RecordTable.ofBytes again.archive.table = .ok like ∧
        List.Forall₂ Record.Alike table.records like.records := by
  obtain ⟨roster, gathered, written⟩ := exists_roster done
  obtain ⟨mate, collected, wrote⟩ := exists_roster ended
  obtain ⟨alike, names⟩ := first.alike_of_rosters second concurs gathered collected
  refine ⟨?_, fun dumped again same also => ?_⟩
  · rw [written, wrote, size, Roster.isOk_toBytes alike names]
  · subst same also
    obtain ⟨_, _, here, stored⟩ := of_finish done
    cases gathered.symm.trans here
    obtain ⟨_, _, there, kept⟩ := of_finish ended
    cases collected.symm.trans there
    obtain ⟨table, read, _, rows⟩ := roster.ofBytes_toBytes_rows stored
    obtain ⟨like, back, _, others⟩ := mate.ofBytes_toBytes_rows kept
    have count : roster.records.size = mate.records.size := by
      simpa using names.length_eq
    refine ⟨table, like, read, back, ?_⟩
    rw [rows, others, size, count]
    exact Roster.forall₂_rows alike names _

end Dump

namespace Session

variable {settings : Settings} {live : Live} {session former latter last : Session} {dump : Dump}
  {one two requests : List Registration} {left right : Outcome (Option Dumped)}

/-- The region that an object was archived in. -/
def regionOf? (session : Session) (object : ObjectId) : Option Region :=
  session.dump.bind fun dump => dump.recording.copies[object]?.map (·.region)

/-- Some walk of a run finds no room for what it has to copy. -/
def Overflows (session : Session) (requests : List Registration) : Prop :=
  ∃ ready asked screened, requests.foldlM register session = .ok ready ∧ ready.dump = some asked ∧
    asked.screen = .ok screened ∧ screened.Overflows

/-- A static field was asked for in the closed region and archived, and its class was not asked for
as a whole. -/
def ArchivedClosed (last : Session) (live : Live) (requests : List Registration) (ofClass : ClassId)
    (offset : UInt32) : Prop :=
  ∃ className fieldName field, Registration.field className fieldName .closed ∈ requests ∧
    Registration.whole className ∉ requests ∧ live.Declares className fieldName ofClass field ∧
    field.offset = offset ∧ last.Archived [className] ofClass offset

/-- The archive of a session has its copies, which are faithful. -/
def Fills (last : Session) (live : Live) (archive : Archive) : Prop :=
  ∃ dump, last.dump = some dump ∧ archive.Carries dump.recording.draft ∧
    dump.recording.Faithful live

/-- Two runs have archived the same, the former for some requests and the latter for others. -/
structure ArchivedAlike (live : Live) (one two : List Registration) (former latter : Session)
    (left right : Outcome (Option Dumped)) : Prop where
  /-- The same objects are archived, each in the same region. -/
  regions : ∀ object, former.regionOf? object = latter.regionOf? object
  /-- This is the closed region for what is behind fields that were archived there, and
  for no others. -/
  formerClosed : ∀ object, former.regionOf? object = some .closed ↔
    live.Anchored (former.ArchivedClosed live one) object
  latterClosed : ∀ object, latter.regionOf? object = some .closed ↔
    live.Anchored (latter.ArchivedClosed live two) object
  /-- Both runs leave an archive, or none of them does. -/
  leaves : (∃ dumped, left = .ok (some dumped)) ↔ ∃ dumped, right = .ok (some dumped)
  /-- The archives have faithful copies of the objects, and tables of alike records in the
  same order. -/
  tables : ∀ dumped other, left = .ok (some dumped) → right = .ok (some other) →
    former.Fills live dumped.archive ∧ latter.Fills live other.archive ∧
    ∃ table like, RecordTable.ofBytes dumped.archive.table = .ok table ∧
      RecordTable.ofBytes other.archive.table = .ok like ∧
      List.Forall₂ Record.Alike table.records like.records

private theorem isEnabled_act {idle answer : α} {change : Dump → Run (α × Dump)}
    (done : session.act idle change = .ok (answer, last)) : last.isEnabled = session.isEnabled := by
  unfold act at done
  unfold isEnabled
  split at done
  · cases done
    rfl
  · rename_i here
    obtain ⟨_, _, same⟩ := bind_eq_ok_iff.mp done
    cases same
    rw [here]
    rfl

theorem isEnabled_run (ran : session.run requests = .ok (last, left)) :
    last.isEnabled = session.isEnabled := by
  obtain ⟨ready, taken, ran⟩ := bind_eq_ok_iff.mp ran
  obtain ⟨⟨_, last⟩, archives, ran⟩ := bind_eq_ok_iff.mp ran
  obtain ⟨_, _, same⟩ := bind_eq_ok_iff.mp ran
  cases same
  refine (isEnabled_act archives).trans (foldlM_preserves
    (fun state => state.isEnabled = session.isEnabled) (fun request _ state next done kept => ?_)
      rfl taken)
  cases request <;> obtain ⟨_, acted, same⟩ := bind_eq_ok_iff.mp done <;> cases same <;>
    exact (isEnabled_act acted).trans kept

/-- Where no walk overflows a region, a run archives all that its screening admits. -/
theorem exists_concludes (closed : live.Closed) (bounded : settings.Bounded)
    (started : start settings live = .ok session) (ran : session.run requests = .ok (last, left))
    (room : ¬ session.Overflows requests) (here : last.dump = some dump) : ∃ asked screened,
      Dump.Passes settings live requests asked screened dump ∧ screened.Concludes dump := by
  obtain ⟨ready, asked, screened, taken, origin, passes⟩ :=
    exists_passes closed bounded started ran here
  exact ⟨asked, screened, passes, passes.concludes closed bounded fun overflows =>
    room ⟨ready, asked, screened, taken, origin, passes.screening, overflows⟩⟩

private theorem not_overflows_of_run (closed : live.Closed) (bounded : settings.Bounded)
    (started : start settings live = .ok session) (ran : session.run requests = .ok (last, left))
    (here : last.dump = some dump) (fulfils : dump.Fulfils) : ¬ session.Overflows requests := by
  obtain ⟨ready, asked, screened, taken, origin, passes⟩ :=
    exists_passes closed bounded started ran here
  rintro ⟨_, _, _, again, source, screening, overflows⟩
  cases taken.symm.trans again
  cases origin.symm.trans source
  cases passes.screening.symm.trans screening
  exact passes.not_overflows closed fulfils overflows

/-- What is behind fields that were archived in the closed region is archived there, and
nothing else. -/
theorem regionOf?_eq_closed_iff {asked screened : Dump} {object : ObjectId}
    (here : last.dump = some dump) (passes : Dump.Passes settings live requests asked screened dump)
    (concludes : screened.Concludes dump)
    (distinct : ((requests.filterMap Registration.nomination?).map Nomination.names).Nodup) :
    last.regionOf? object = some .closed ↔
      live.Anchored (last.ArchivedClosed live requests) object := by
  have settled : last.regionOf? object = some .closed ↔
      Settled .closed dump.recording.copies object := by
    simp [regionOf?, here, Settled]
  have same (ofClass : ClassId) (offset : UInt32) :
      last.ArchivedClosed live requests ofClass offset ↔
      screened.Assigns ofClass offset .closed := by
    rw [passes.assigns_closed_iff distinct, ArchivedClosed]
    refine exists_congr fun className => exists_congr fun fieldName => exists_congr fun field =>
      and_congr_right fun _ => and_congr_right fun _ => and_congr_right fun declares =>
        and_congr_right fun _ => ?_
    rw [archived_iff_entered here passes.recorded declares.1, concludes.entered_iff]
  rw [settled, concludes.settled_iff, passes.heap]
  exact ⟨fun anchored => anchored.mono fun _ _ => (same _ _).mpr,
    fun anchored => anchored.mono fun _ _ => (same _ _).mp⟩

private theorem regionOf?_eq_of_concurs {screened sifted dump dumped : Dump}
    (here : former.dump = some dump)
    (there : latter.dump = some dumped) (first : screened.Concludes dump)
    (second : sifted.Concludes dumped) (concurs : screened.Concurs sifted) (object : ObjectId) :
    former.regionOf? object = latter.regionOf? object := by
  simp only [regionOf?, here, there, Option.bind_some]
  cases known : dump.recording.copies[object]? with
  | none =>
    cases again : dumped.recording.copies[object]? with
    | none => rfl
    | some place =>
      have copied := (first.mem_copies_congr second concurs).mpr (mem_copies_iff.mpr ⟨place, again⟩)
      obtain ⟨_, found⟩ := mem_copies_iff.mp copied
      cases known.symm.trans found
  | some place =>
    have copied := (first.mem_copies_congr second concurs).mp (mem_copies_iff.mpr ⟨place, known⟩)
    obtain ⟨other, again⟩ := mem_copies_iff.mp copied
    rw [again, Option.map_some, Option.map_some, first.region_eq second concurs known again]

private theorem archivedAlike_of_disabled (here : former.dump = none) (there : latter.dump = none)
    (finished : former.finish = .ok left) (ended : latter.finish = .ok right) :
    ArchivedAlike live one two former latter left right := by
  have nowhere {last : Session} (off : last.dump = none) (requests : List Registration)
      (object : ObjectId) : last.regionOf? object = none ∧
        ¬ live.Anchored (last.ArchivedClosed live requests) object := by
    refine ⟨by rw [regionOf?, off]; rfl, fun anchored => ?_⟩
    obtain ⟨_, _, _, ⟨_, _, _, _, _, _, _, page, member, _⟩, _⟩ := anchored
    simp [pages, off] at member
  have empty {last : Session} {left : Outcome (Option Dumped)} (off : last.dump = none)
      (finished : last.finish = .ok left) : left = .ok none := by
    unfold finish at finished
    rw [off] at finished
    exact (Except.ok.inj finished).symm
  obtain rfl := empty here finished
  obtain rfl := empty there ended
  exact {
    regions := fun object => (nowhere here one object).1.trans (nowhere there two object).1.symm
    formerClosed := fun object => by simp [nowhere here one object]
    latterClosed := fun object => by simp [nowhere there two object]
    leaves := by simp
    tables := fun _ _ same => by cases same }

theorem fills_of_finish {dumped : Dumped} (here : last.dump = some dump)
    (recorded : dump.recording.Truthful live) (done : dump.finish = .ok (.ok dumped)) :
    last.Fills live dumped.archive := by
  obtain ⟨tiles, intact⟩ := recorded.intact
  exact ⟨dump, here, (Dump.of_finish done).1, intact.isFaithful⟩

theorem exists_outcome (here : last.dump = some dump) (finished : last.finish = .ok left) :
    ∃ outcome, dump.finish = .ok outcome ∧
      ∀ dumped, left = .ok (some dumped) ↔ outcome = .ok dumped := by
  unfold finish at finished
  rw [here] at finished
  obtain ⟨outcome, done, same⟩ := bind_eq_ok_iff.mp finished
  cases same
  refine ⟨outcome, done, fun dumped => ?_⟩
  cases outcome <;> simp [Except.map]

/-- Sessions whose dumps have archived all that their screenings admit, after the same requests in
two orders, have archived the same. -/
theorem archivedAlike_of_concludes {asked screened sought sifted dumped : Dump}
    (reorders : Registration.Reorders one two) (closed : live.Closed)
    (here : former.dump = some dump) (there : latter.dump = some dumped)
    (passes : Dump.Passes settings live one asked screened dump)
    (passed : Dump.Passes settings live two sought sifted dumped)
    (first : screened.Concludes dump) (second : sifted.Concludes dumped)
    (finished : former.finish = .ok left) (ended : latter.finish = .ok right) :
    ArchivedAlike live one two former latter left right := by
  have concurs := passes.concurs closed passed reorders
  obtain ⟨outcome, done, ends⟩ := exists_outcome here finished
  obtain ⟨other, also, leaves⟩ := exists_outcome there ended
  obtain ⟨both, tables⟩ := Dump.alike_of_finish first second concurs
    (passes.bucketSize_eq.trans passed.bucketSize_eq.symm) done also
  exact {
    regions := regionOf?_eq_of_concurs here there first second concurs
    formerClosed := fun _ => regionOf?_eq_closed_iff here passes first reorders.distinct
    latterClosed := fun _ => regionOf?_eq_closed_iff there passed second reorders.symm.distinct
    leaves := by simpa only [ends, leaves] using both
    tables := fun dumped other same again => by
      rw [ends] at same
      rw [leaves] at again
      exact ⟨fills_of_finish here passes.recorded (same ▸ done),
        fills_of_finish there passed.recorded (again ▸ also), tables _ _ same again⟩ }

/-- The order in which static fields are asked for does not matter. Let a session on a heap without
dangling references be asked for the same whole classes, in one order, and for the same static
fields, each once, in any order. Each run comes to an end, unless its counts overflow; and if no
walk of either run overflows a region, they archive the same objects, each in the same region, which
is the closed one exactly for what is behind fields that were archived there and whose classes were
not asked for as a whole. Both leave an archive or none does; and the tables have records of the
same classes in the same order, which have the same flag, the same classes and the same entries, but
for the places of objects. -/
theorem alike_of_reorders (closed : live.Closed) (bounded : settings.Bounded)
    (started : start settings live = .ok session) (reorders : Registration.Reorders one two)
    (roomy : ¬ session.Overflows one) (spacious : ¬ session.Overflows two) :
    (session.Countable one → ∃ former left, session.run one = .ok (former, left)) ∧
    (session.Countable two → ∃ latter right, session.run two = .ok (latter, right)) ∧
    ∀ former left latter right, session.run one = .ok (former, left) →
      session.run two = .ok (latter, right) →
        ArchivedAlike live one two former latter left right := by
  refine ⟨exists_run closed bounded started, exists_run closed bounded started,
    fun former left latter right ran again => ?_⟩
  have finished := finish_of_run ran
  have ended := finish_of_run again
  have enabled := (isEnabled_run ran).trans (isEnabled_run again).symm
  cases here : former.dump with
  | none =>
    cases there : latter.dump with
    | none => exact archivedAlike_of_disabled here there finished ended
    | some _ => simp [isEnabled, here, there] at enabled
  | some dump =>
    cases there : latter.dump with
    | none => simp [isEnabled, here, there] at enabled
    | some dumped =>
      obtain ⟨_, _, passes, first⟩ := exists_concludes closed bounded started ran roomy here
      obtain ⟨_, _, passed, second⟩ := exists_concludes closed bounded started again spacious there
      exact archivedAlike_of_concludes reorders closed here there passes passed first second
        finished ended

/-- Three static fields of a class lead to one object, each in its own way. -/
def sharing : Live where
  classes := #[{
      shape := {
        name := "Roots"
        traits := .plain
        statics := #[⟨"outer", 16, true⟩, ⟨"inner", 24, true⟩, ⟨"other", 32, true⟩]
        placed := by decide }
      statics := #[.ref ⟨0⟩, .ref ⟨1⟩, .ref ⟨2⟩]
      sized := rfl },
    .ofShape (.named "Node" .plain)]
  objects := #[⟨⟨1⟩, #[.ref ⟨1⟩]⟩, ⟨⟨1⟩, #[.bits 7, .null]⟩, ⟨⟨1⟩, #[.ref ⟨1⟩, .ref ⟨2⟩]⟩]
  distinct := by decide
  classified := by decide
  numbered := by decide

def sharingRequests : List Registration :=
  [.field "Roots" "other" .opened, .whole "Node", .field "Roots" "outer" .closed,
    .field "Roots" "inner" .closed]

/-- Asked for in the opposite order, the fields leave another table, which is alike. -/
theorem alike_of_reorders_sharing : ∃ session former latter dumped other table like,
    start {} sharing = .ok session ∧
    session.run sharingRequests = .ok (former, .ok (some dumped)) ∧
    session.run sharingRequests.reverse = .ok (latter, .ok (some other)) ∧
    (∀ object, former.regionOf? object = latter.regionOf? object) ∧
    former.regionOf? ⟨1⟩ = some .closed ∧ former.regionOf? ⟨2⟩ = some .opened ∧
    RecordTable.ofBytes dumped.archive.table = .ok table ∧
    RecordTable.ofBytes other.archive.table = .ok like ∧ table ≠ like ∧
    List.Forall₂ Record.Alike table.records like.records := by
  have closed : sharing.Closed := Live.closed_of_targets (by decide +kernel) (by decide +kernel)
  have bounded : Settings.Bounded {} := by decide
  have run {session : Session} {requests : List Registration}
      (started : start {} sharing = .ok session)
      (ran : (left? (session.run requests)).any (fun left =>
        left.1.dump.any fun dump => decide dump.Fulfils) = true) :
      ∃ last dumped, left? (session.run requests) = some (last, dumped) ∧
        ¬ session.Overflows requests := by
    obtain ⟨⟨last, dumped⟩, found, checked⟩ := (Option.any_eq_true _ _).mp ran
    obtain ⟨dump, here, fulfils⟩ := (Option.any_eq_true _ _).mp checked
    exact ⟨last, dumped, found, not_overflows_of_run closed bounded started (of_left? found) here
      (of_decide_eq_true fulfils)⟩
  obtain ⟨session, started, ran, again, differ⟩ : ∃ session, start {} sharing = .ok session ∧
      (left? (session.run sharingRequests)).any (fun left =>
        left.1.dump.any fun dump => decide dump.Fulfils) = true ∧
      (left? (session.run sharingRequests.reverse)).any (fun left =>
        left.1.dump.any fun dump => decide dump.Fulfils) = true ∧
      (left? (session.run sharingRequests)).any (fun left =>
        (left? (session.run sharingRequests.reverse)).any fun right =>
          left.1.regionOf? ⟨1⟩ == some .closed && left.1.regionOf? ⟨2⟩ == some .opened &&
            (RecordTable.ofBytes left.2.archive.table).toOption !=
              (RecordTable.ofBytes right.2.archive.table).toOption) = true :=
    ⟨_, rfl, by decide +kernel, by decide +kernel, by decide +kernel⟩
  obtain ⟨former, dumped, found, roomy⟩ := run started ran
  obtain ⟨latter, other, left, spacious⟩ := run started again
  obtain ⟨_, _, alike⟩ := alike_of_reorders closed bounded started
    ⟨(List.reverse_perm _).symm, rfl, by decide⟩ roomy spacious
  have same := alike _ _ _ _ (of_left? found) (of_left? left)
  obtain ⟨_, _, table, like, read, back, records⟩ := same.tables dumped other rfl rfl
  rw [found, left] at differ
  simp only [Option.any_some, read, back, Bool.and_eq_true, beq_iff_eq, bne_iff_ne] at differ
  obtain ⟨⟨shared, apart⟩, differ⟩ := differ
  exact ⟨session, former, latter, dumped, other, table, like, started, of_left? found,
    of_left? left,
    same.regions, shared, apart, read, back, fun same => differ (same ▸ rfl), records⟩

end Session
end FrozenHeap
