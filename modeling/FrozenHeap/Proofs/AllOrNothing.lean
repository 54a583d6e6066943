import FrozenHeap.Proofs.Dump.Courses
import FrozenHeap.Proofs.RoundTrip
import FrozenHeap.Proofs.Thaw.Refusing

/-! All or nothing. What a session archives is served into a heap that defines some of the classes
only: each class is stored as a whole, or the heap stays as it was. -/

namespace FrozenHeap

theorem Linked.length_le {draft : Draft} {copies : Copies} {live : Live} {tiles : List Tile}
    (linked : Linked draft copies live.portrait? tiles) : tiles.length ≤ live.objects.size := by
  have distinct : ((tiles.map Tile.object).map ObjectId.index).Nodup :=
    linked.tiling.distinct.map fun left right same => by
      cases left
      cases right
      exact congrArg ObjectId.mk same
  rw [List.map_map] at distinct
  have inside : tiles.map (·.object.index) ⊆ List.range live.objects.size := by
    intro index member
    obtain ⟨tile, there, rfl⟩ := List.mem_map.mp member
    obtain ⟨seen, found, _⟩ := linked.portrait?_tile there
    exact List.mem_range.mpr (Live.isSome_portrait?.mp (Option.isSome_of_eq_some found))
  have bound := (List.subperm_of_subset distinct inside).length_le
  rwa [List.length_map, List.length_range] at bound

theorem Dump.listed_archiveAll {dump after : Dump} (listed : dump.recording.Listed dump.live)
    (done : dump.archiveAll = .ok after) :
    after.live = dump.live ∧ after.recording.Listed dump.live := by
  rw [archiveAll_eq] at done
  obtain ⟨screened, screens, archived⟩ := bind_eq_ok_iff.mp done
  have continues := Continues.archiveScreened archived
  have kept : screened.live = dump.live ∧ screened.recording = dump.recording := by
    rcases screen_ok screens with ⟨_, rfl⟩ | ⟨_, _, _, _, _, _, rfl⟩ <;> exact ⟨rfl, rfl⟩
  have course := continues.course
  rw [kept.1, kept.2] at course
  refine ⟨by rw [continues.same]; exact kept.1, ?_⟩
  refine course.preserves (Recording.Listed dump.live)
    (fun _ _ _ looks listed done => listed.perform looks done) (fun recording totals listed => ?_)
      listed
  obtain ⟨tiles, intact⟩ := listed.intact
  exact ⟨⟨tiles, intact.congr rfl rfl intact.seen⟩, listed.pages, listed.round⟩

namespace Session

variable {settings : Settings} {live target : Live} {session last : Session} {dump : Dump}
  {dumped : Dumped} {mapper : Mapper} {tiles : List Tile} {loaded : Loaded}

/-- The archive that a session has left is loaded, and not fixed up yet. -/
structure Leaves (last : Session) (dump : Dump) (live : Live) (tiles : List Tile)
    (loaded : Loaded) :
    Prop where
  here : last.dump = some dump
  recorded : dump.recording.Truthful live
  listed : dump.recording.Listed live
  intact : dump.recording.Intact live.classNames live.portrait? tiles
  hosting : loaded.Hosting dump.recording.draft
  enabled : loaded.enabled = true
  filed : ∀ name record, loaded.table.find? name = some record →
    ∃ page ∈ last.pages, page.name = name ∧ page.toRecord = record

private theorem exists_leaves {requests : List Registration} (enabled : settings.enabled = true)
    (bounded : settings.Bounded) (started : start settings live = .ok session)
    (ran : session.run requests = .ok (last, .ok (some dumped)))
    (granted : dumped.archive.Granted mapper) :
    ∃ dump tiles loaded count, Loaded.load dumped.archive true mapper = .ok loaded ∧
      loaded.fixup = .ok (.ok count, loaded.fixedUp) ∧ last.Leaves dump live tiles loaded := by
  obtain ⟨dump, here, recorded, done⟩ := exists_dump (.start enabled bounded started) ran
  have lists : session.Keeps live (Recording.Listed live) :=
    .start enabled started fun _ laid => .start laid bounded settings.verify
  obtain ⟨other, there, listed, _⟩ := lists.exists_dump
    (fun dump later heap listed archived => by
      subst heap
      exact Dump.listed_archiveAll listed archived) ran
  cases here.symm.trans there
  obtain ⟨tiles, intact⟩ := recorded.intact
  have framed := intact.linked.tiling.framed
  obtain ⟨carries, _⟩ := Dump.of_finish done
  obtain ⟨table, read, sound, _, records⟩ := Dump.exists_table recorded done
  obtain ⟨loaded, loads, holding, rfl⟩ :=
    Loaded.exists_load read (carries.wellFormed framed).distinct granted
  have hosting := carries.hosting framed granted holding
  obtain ⟨count, fixes⟩ := (hosting.fixable intact.linked).fixup_eq
  refine ⟨dump, tiles, loaded, count, loads, fixes, here, recorded, listed, intact, hosting,
    holding.enabled, fun name record found => ?_⟩
  rw [RecordTable.find?_eq sound] at found
  have named : record.className = name := by simpa using List.find?_some found
  obtain ⟨page, member, _, rfl⟩ := (records record).mp (List.mem_of_find?_eq_some found)
  exact ⟨page, pages_eq here ▸ Array.mem_toList_iff.mpr member, named, rfl⟩

/-- All static fields that a session has archived. -/
abbrev Statics (last : Session) : ClassId → UInt32 → Prop := last.Archived (last.pages.map (·.name))

/-- An object that was archived, and can be copied into another heap. -/
def Wanted (last : Session) (live target : Live) (object : ObjectId) : Prop :=
  live.Anchored last.Statics object ∧ live.WelcomeIn target object

/-- What was archived of a static field, where another heap has a field that can take it. -/
def Plans (last : Session) (dump : Dump) (live target : Live) (loaded : Loaded) (name : String)
    (offset : UInt32) (value : Value) : Prop :=
  loaded.Planned dump.recording.copies live last.Statics name offset value ∧
    Thaw.Fits (loaded.Locates dump.recording.copies (last.Wanted live target)) target name offset
      value

private theorem functional_plans : Thaw.Functional (last.Plans dump live target loaded) :=
  fun name offset value other first second =>
    loaded.functional_planned _ _ _ name offset value other first.1 second.1

namespace Leaves

variable (leaves : last.Leaves dump live tiles loaded)
include leaves

theorem provides : loaded.Provides dump.recording.draft dump.recording.copies live tiles
    last.Statics :=
  Session.provides leaves.here leaves.recorded leaves.intact leaves.hosting _

theorem ready : Thaw.Ready loaded.fixedUp
    (loaded.Locates dump.recording.copies (last.Wanted live target)) target :=
  leaves.provides.ready_of_wanted (fun _ wanted => wanted.1)
    (fun _ _ wanted refers => ⟨wanted.1.target refers, wanted.2.of_refers refers⟩)
    fun object seen wanted found => Option.isSome_iff_exists.mp (wanted.2 object seen .refl found)

/-- When its record can be resolved, the static fields of a class can take what was archived. -/
theorem fits (alike : live.LaidOutAlike target) {page : Page} (present : page ∈ last.pages)
    (defined : (target.classNamed? page.name).isSome = true)
    (resolved : ∀ name ∈ page.toRecord.classes, (target.classNamed? name).isSome = true)
    {offset : UInt32} {value : Value}
    (planned : loaded.Planned dump.recording.copies live last.Statics page.name offset value) :
    Thaw.Fits (loaded.Locates dump.recording.copies (last.Wanted live target)) target
      page.name offset value := by
  obtain ⟨other, there, title, _, offsets⟩ := exists_page leaves.here leaves.recorded planned
  obtain rfl := page_inj leaves.here leaves.recorded there present title
  obtain ⟨ofClass, slot, named, archived, held, rfl⟩ := planned
  obtain ⟨owner, known⟩ := Option.isSome_iff_exists.mp defined
  refine ⟨⟨owner, known, alike.static named known (Option.isSome_of_eq_some held)⟩, ?_⟩
  intro address same
  cases slot with
  | bits _ => cases same
  | null => cases same
  | ref root =>
    cases same
    have member := Array.mem_toList_iff.mp (pages_eq leaves.here ▸ there)
    obtain ⟨entry, entered, rfl⟩ := List.mem_map.mp offsets
    have entered := Array.mem_toList_iff.mp entered
    have truthful := leaves.recorded.pages other member
    obtain ⟨_, found, title⟩ := truthful.named
    obtain ⟨slot, value, tells⟩ := truthful.entries entry entered
    cases (title ▸ Live.classNamed?_of_getElem? found).symm.trans named
    cases value.symm.trans held
    have welcome := (leaves.listed.pages other member).welcomeIn resolved entered tells
    exact ⟨root, ⟨⟨other.ofClass, entry.offset, root, archived, held, .refl⟩, welcome⟩, rfl⟩

/-- A class that the heap defines is served, as a whole or not at all. -/
theorem delivers_serve (alike : live.LaidOutAlike target) {name : String}
    (defined : (target.classNamed? name).isSome = true) {thaw : Thaw}
    (fit : Thaw.Fit loaded.fixedUp
      (loaded.Locates dump.recording.copies (last.Wanted live target)) target thaw) :
    Delivers (Thaw.Roomy target.objects.size
        (loaded.Locates dump.recording.copies (last.Wanted live target)))
      (loaded.fixedUp.serve (Thaw.host loaded.fixedUp) thaw name) fun answer =>
        Thaw.Fit loaded.fixedUp
          (loaded.Locates dump.recording.copies (last.Wanted live target)) target answer.2 ∧
        loaded.fixedUp.Serves name thaw answer.1 answer.2 := by
  have usable := Loaded.isUsable_fixedUp leaves.enabled
  have names (other : String) := Live.classNamed?_of_shapes fit.shapes other
  cases found : loaded.fixedUp.table.find? name with
  | none =>
    have done : loaded.fixedUp.serve (Thaw.host loaded.fixedUp) thaw name = .ok (none, thaw) := by
      simp only [Loaded.serve, usable, if_true, found]
    exact .of_eq_ok done ⟨fit, .missed fun _ listed => by cases found.symm.trans listed⟩
  | some record =>
    obtain ⟨page, present, rfl, rfl⟩ := leaves.filed name record found
    by_cases resolved : ∀ other ∈ page.toRecord.classes, (target.classNamed? other).isSome = true
    · obtain ⟨values, read, _, wanted⟩ := exists_values leaves.here leaves.recorded leaves.intact
        leaves.hosting present (List.mem_map_of_mem present)
      have planned (pair : UInt32 × Value) (paired : pair ∈ values) :
          last.Plans dump live target loaded page.name pair.1 pair.2 :=
        ⟨wanted pair paired, leaves.fits alike present defined resolved (wanted pair paired)⟩
      have delivers := Thaw.delivers_serve (last.Plans dump live target loaded) functional_plans
        (fun _ _ _ planned => planned.2) leaves.ready usable found resolved read planned fit
      refine delivers.imp ?_
      rintro ⟨_, after⟩ ⟨rfl, finished, stored, _⟩
      have defined (other : String) (listed : other ∈ page.toRecord.classes) :
          (thaw.heap.classNamed? other).isSome = true := names other ▸ resolved other listed
      have failed := finished.failed.trans fit.failed.symm
      refine ⟨finished, .stored found defined failed finished.sound fun entry member => ?_⟩
      obtain ⟨value, here, listed⟩ := Loaded.exists_value read entry member
      exact ⟨value, here, stored _ listed⟩
    · simp only [not_forall] at resolved
      obtain ⟨other, listed, missing⟩ := resolved
      have unknown : thaw.heap.classNamed? other = none := by
        rw [names]
        simpa using missing
      have done : loaded.fixedUp.serve (Thaw.host loaded.fixedUp) thaw page.name =
          .ok (none, thaw) := by
        simp only [Loaded.serve, usable, if_true, found, Loaded.resolveAll_missing listed unknown]
      refine .of_eq_ok done ⟨fit, .missed fun record again => ?_⟩
      cases found.symm.trans again
      exact ⟨other, listed, unknown⟩

end Leaves

/-- Whatever is asked of a session on a heap, the archive that it leaves is loaded and fixed up
wherever the mapper puts its regions, and served into a heap that defines any of the classes, with
static fields laid out alike, and may hold objects and values already. Classes that are defined
there are asked for in any order and any number of times. Each call finds the class and stores all
of its record, which never fails, or it finds nothing and changes nothing; and calls return as long
as there is room for a copy of each archived object. -/
theorem serves_of_run {requests : List Registration} (enabled : settings.enabled = true)
    (bounded : settings.Bounded) (started : start settings live = .ok session)
    (ran : session.run requests = .ok (last, .ok (some dumped)))
    (granted : dumped.archive.Granted mapper) :
    ∃ loaded count fixed copies, Loaded.load dumped.archive true mapper = .ok loaded ∧
      loaded.fixup = .ok (.ok count, fixed) ∧ copies < UInt32.size ∧ copies ≤ live.objects.size ∧
      ∀ target, live.LaidOutAlike target → ∀ calls : List String,
        (∀ name ∈ calls, (target.classNamed? name).isSome = true) →
          (target.objects.size + copies ≤ UInt32.size → ∃ answers thaw,
            fixed.serveAll (Thaw.host fixed) (.start target) calls = .ok (answers, thaw)) ∧
          ∀ answers thaw, fixed.serveAll (Thaw.host fixed)
            (.start target) calls = .ok (answers, thaw) →
            ∀ name, (target.classNamed? name).isSome = true → ∀ answer after,
              fixed.serve (Thaw.host fixed) thaw name = .ok (answer, after) →
                fixed.Serves name thaw answer after := by
  obtain ⟨dump, tiles, loaded, count, loads, fixes, leaves⟩ :=
    exists_leaves enabled bounded started ran granted
  have linked := leaves.intact.linked
  refine ⟨loaded, count, loaded.fixedUp, tiles.length, loads, fixes, linked.tiling.length_lt,
    linked.length_le, fun target alike calls defined => ?_⟩
  have delivers := Loaded.delivers_serveAll
    (fun name listed thaw fit => (leaves.delivers_serve alike (defined name listed) fit).imp
      fun _ good => good.1) (.start target)
  constructor
  · intro room
    obtain ⟨⟨answers, thaw⟩, done⟩ :=
      delivers.returns (leaves.provides.roomy_of_wanted (fun _ wanted => wanted.1) room)
    exact ⟨answers, thaw, done⟩
  · intro answers thaw done name known answer after called
    have fit := delivers.good _ done
    exact ((leaves.delivers_serve alike known fit).good _ called).2

end Session

/-- A heap with the same classes but one, before anything is stored or allocated. -/
def Live.lacking (live : Live) (name : String) : Live where
  classes := (live.classes.filter (·.shape.name != name)).map fun loaded => .ofShape loaded.shape
  objects := #[]
  distinct := by
    rw [Array.toList_map, List.map_map, Array.toList_filter]
    exact live.distinct.sublist (List.filter_sublist.map _)
  classified _ inside := absurd inside (Nat.not_lt_zero _)
  numbered := by
    rw [Array.size_map]
    exact Nat.le_trans Array.size_filter_le live.numbered

private theorem Live.laidOutAlike_lacking (live : Live) (name : String) :
    live.LaidOutAlike (live.lacking name) := by
  intro loaded member other there same
  obtain ⟨another, kept, rfl⟩ := Array.mem_map.mp there
  have present := Array.mem_toList_iff.mpr (Array.mem_filter.mp kept).1
  rw [List.inj_on_of_nodup_map live.distinct present (Array.mem_toList_iff.mpr member) same]
  rfl

theorem Session.serves_of_run_forked : ∃ session last dumped loaded count fixed after,
    start {} Recording.forked = .ok session ∧
    session.run [.field "Index" "first" .opened, .field "Index" "third" .closed] =
      .ok (last, .ok (some dumped)) ∧
    Loaded.load dumped.archive true pageMapper = .ok loaded ∧
    loaded.fixup = .ok (.ok count, fixed) ∧
    fixed.serve (Thaw.host fixed) (.start (Recording.forked.lacking "Leaf")) "Index" =
      .ok (none, .start (Recording.forked.lacking "Leaf")) ∧
    fixed.serve (Thaw.host fixed) (.start (Recording.forked.lacking "Lock")) "Index" =
      .ok (some true, after) ∧
    fixed.Serves "Index" (.start (Recording.forked.lacking "Lock")) (some true) after := by
  obtain ⟨session, started, ran⟩ : ∃ session, start {} Recording.forked = .ok session ∧
      (left? (session.run [.field "Index" "first" .opened, .field "Index" "third" .closed])).any
        (fun left => left.2.archive.filled.all (·.byteLength ≤ 4096) &&
          (Loaded.load left.2.archive true pageMapper).toOption.any fun loaded =>
            loaded.fixup.toOption.any fun fixed => (fixed.2.table.find? "Index").any fun record =>
              record.classes == ["Node", "Leaf"] && record.isPartial) = true :=
    ⟨_, rfl, by decide +kernel⟩
  obtain ⟨⟨last, dumped⟩, found, checked⟩ := (Option.any_eq_true _ _).mp ran
  rw [Bool.and_eq_true, List.all_eq_true, any_toOption_iff] at checked
  obtain ⟨small, loaded, loads, checked⟩ := checked
  obtain ⟨⟨outcome, fixed⟩, fixes, checked⟩ := any_toOption_iff.mp checked
  obtain ⟨record, listed, checked⟩ := (Option.any_eq_true _ _).mp checked
  rw [Bool.and_eq_true, beq_iff_eq] at checked
  obtain ⟨classes, isPartial⟩ := checked
  obtain ⟨_, count, _, copies, again, refixes, few, _, serves⟩ :=
    serves_of_run rfl (by decide) started
    (of_left? found) (granted_pageMapper fun image listed => of_decide_eq_true (small image listed))
  cases loads.symm.trans again
  cases fixes.symm.trans refixes
  -- The first call for the class returns, and it is one that finds the class or changes nothing.
  have call (name : String)
      (defined : ((Recording.forked.lacking name).classNamed? "Index").isSome = true) :
      ∃ answer after, fixed.serve (Thaw.host fixed) (.start (Recording.forked.lacking name))
        "Index" = .ok (answer, after) ∧
        fixed.Serves "Index" (.start (Recording.forked.lacking name)) answer after := by
    have alike := Recording.forked.laidOutAlike_lacking name
    have room : (Recording.forked.lacking name).objects.size + copies ≤ UInt32.size := by
      rw [show (Recording.forked.lacking name).objects.size = 0 from rfl, Nat.zero_add]
      exact few.le
    obtain ⟨answers, thaw, served⟩ := (serves _ alike ["Index"] (by simpa using defined)).1 room
    obtain ⟨⟨answer, after⟩, called, _⟩ := bind_eq_ok_iff.mp served
    exact ⟨answer, after, called, (serves _ alike [] (by simp)).2 [] _ rfl "Index" defined
      answer after called⟩
  obtain ⟨_, _, refused, missed⟩ := call "Leaf" (by decide +kernel)
  obtain ⟨_, after, called, stored⟩ := call "Lock" (by decide +kernel)
  refine ⟨session, last, dumped, loaded, count, fixed, after, started, of_left? found, loads, fixes,
    ?_, ?_⟩
  · cases missed with
    | missed _ => exact refused
    | stored again resolved =>
      cases listed.symm.trans again
      rw [classes] at resolved
      exact absurd (resolved "Leaf" (by simp)) (by decide +kernel)
  · cases stored with
    | missed unlisted =>
      obtain ⟨other, member, absent⟩ := unlisted record listed
      rw [classes] at member
      rcases List.mem_pair.mp member with rfl | rfl <;> exact absurd absent (by decide +kernel)
    | stored again resolved failed sound entries =>
      cases listed.symm.trans again
      rw [isPartial] at called
      exact ⟨called, isPartial ▸ .stored listed resolved failed sound entries⟩

end FrozenHeap
