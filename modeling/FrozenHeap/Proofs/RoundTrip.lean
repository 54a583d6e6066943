import FrozenHeap.Proofs.RecordTable.RoundTrip
import FrozenHeap.Proofs.Recording.Listing
import FrozenHeap.Proofs.Session
import FrozenHeap.Proofs.Thaw.Serving

/-! The round trip. What a session archives is written, read back, loaded somewhere else, and served
into a fresh heap, where it is the same graph of objects. -/

namespace FrozenHeap

/-- Class names and their count fit the lengths that an archive has for them. -/
structure Live.Nameable (live : Live) : Prop where
  count : live.classes.size < UInt32.size
  short : ∀ name ∈ live.classNames, name.utf8ByteSize < UInt32.size

/-- A heap with the same classes before anything is stored or allocated. -/
def Live.unused (live : Live) : Live where
  classes := live.classes.map fun loaded => .ofShape loaded.shape
  objects := #[]
  distinct := by
    rw [Array.toList_map, List.map_map]
    exact live.distinct
  classified _ inside := absurd inside (Nat.not_lt_zero _)
  numbered := by
    rw [Array.size_map]
    exact live.numbered

private theorem Live.definedIn_unused (live : Live) : live.DefinedIn live.unused := by
  intro loaded member
  exact ⟨.ofShape loaded.shape, Array.mem_map_of_mem member, rfl⟩

private theorem Roster.size_lt {roster : Roster} {bucketSize : Nat} {bytes : Array UInt8}
    (written : roster.toBytes bucketSize = .ok bytes) : bytes.size < UInt32.size := by
  unfold toBytes at written
  simp only at written
  split at written
  · rename_i small
    cases written
    exact small
  · cases written

namespace Loaded

/-- With archiving switched on, fixed up regions may be used. -/
theorem isUsable_fixedUp {loaded : Loaded} (enabled : loaded.enabled = true) :
    loaded.fixedUp.isUsable = true := by
  rw [isUsable, Bool.and_eq_true, List.all_eq_true]
  refine ⟨enabled, fun resident member => ?_⟩
  obtain ⟨region, _, found⟩ := List.mem_filterMap.mp member
  rw [region?_fixedUp, Option.map_eq_some_iff] at found
  obtain ⟨before, _, rfl⟩ := found
  rfl

end Loaded

namespace Session

variable {settings : Settings} {live target : Live} {session last : Session} {dump : Dump}
  {dumped : Dumped} {mapper : Mapper} {tiles : List Tile} {loaded : Loaded}

theorem exists_toBytes (nameable : live.Nameable)
    (intact : dump.recording.Intact live.classNames live.portrait? tiles)
    (finished : dump.finish = .ok (.ok dumped)) : ∃ bytes, dumped.archive.toBytes = .ok bytes := by
  obtain ⟨carries, roster, _, written⟩ := Dump.of_finish finished
  have count := intact.named.size_le
  have classes : live.classNames.length = live.classes.size := by
    rw [Live.classNames, List.length_map, Array.length_toList]
  have regions : dumped.archive.regions.length = 2 := by
    rw [carries.regions]
    rfl
  have fits : dumped.archive.sectionsFit = true := by
    simp only [Archive.sectionsFit, Bool.and_eq_true, decide_eq_true_eq, Array.all_eq_true',
      carries.names]
    refine ⟨⟨?_, fun name member => ?_⟩, Roster.size_lt written⟩
    · exact Nat.lt_of_le_of_lt (classes ▸ count) nameable.count
    · exact nameable.short name (intact.named.known name member)
  rw [Archive.toBytes, if_neg (by rw [regions]; decide), if_pos fits]
  exact ⟨_, rfl⟩

/-- An archived static field has a value, and the object that it refers to has a copy. -/
theorem exists_static (here : last.dump = some dump) (recorded : dump.recording.Truthful live)
    {names : List String} {ofClass : ClassId} {offset : UInt32}
    (archived : last.Archived names ofClass offset) :
    ∃ slot, live.static? ofClass offset = some slot ∧
      ∀ root, slot = .ref root → root ∈ dump.recording.copies := by
  obtain ⟨page, member, rfl, _, entry, listed, rfl⟩ := archived
  rw [pages_eq here] at member
  obtain ⟨slot, value, tells⟩ :=
    (recorded.pages page (Array.mem_toList_iff.mp member)).entries entry listed
  refine ⟨slot, value, fun root same => ?_⟩
  subst same
  obtain ⟨place, _, known, _⟩ := tells
  exact mem_copies_iff.mpr ⟨place, known⟩

theorem provides (here : last.dump = some dump) (recorded : dump.recording.Truthful live)
    (intact : dump.recording.Intact live.classNames live.portrait? tiles)
    (hosting : loaded.Hosting dump.recording.draft) (names : List String) :
    loaded.Provides dump.recording.draft dump.recording.copies live tiles
      (last.Archived names) where
  hosting := hosting
  linked := intact.linked
  few := intact.few
  rooted ofClass offset root archived value := by
    obtain ⟨slot, same, cached⟩ := exists_static here recorded archived
    rw [value] at same
    cases same
    exact cached root rfl

/-- The entries of a page are read, all of them, as what the static fields of its class hold. -/
theorem exists_values (here : last.dump = some dump) (recorded : dump.recording.Truthful live)
    (intact : dump.recording.Intact live.classNames live.portrait? tiles)
    (hosting : loaded.Hosting dump.recording.draft) {page : Page} (present : page ∈ last.pages)
    {names : List String} (listed : page.name ∈ names) :
    ∃ values, loaded.fixedUp.valuesOf? page.toRecord.entries = .ok (some values) ∧
      values.map (·.1) = page.entries.toList.map (·.offset) ∧
      ∀ pair ∈ values, loaded.Planned dump.recording.copies live (last.Archived names) page.name
        pair.1 pair.2 := by
  have member := present
  rw [pages_eq here] at member
  have truthful := recorded.pages page (Array.mem_toList_iff.mp member)
  obtain ⟨values, read, offsets, told⟩ := hosting.valuesOf?_tells intact.linked intact.few
    page.entries.toList fun entry listed => truthful.entries entry (Array.mem_toList_iff.mp listed)
  refine ⟨values, read, offsets, fun pair paired => ?_⟩
  obtain ⟨slot, value, held⟩ := told pair paired
  obtain ⟨owner, found, title⟩ := truthful.named
  have offset : pair.1 ∈ page.entries.toList.map (·.offset) := by
    rw [← offsets]
    exact List.mem_map_of_mem paired
  obtain ⟨entry, entered, position⟩ := List.mem_map.mp offset
  exact ⟨page.ofClass, slot, title ▸ Live.classNamed?_of_getElem? found,
    ⟨page, present, rfl, listed, entry, Array.mem_toList_iff.mp entered, position⟩, value, held⟩

private theorem exists_servable (here : last.dump = some dump)
    (recorded : dump.recording.Truthful live)
    (intact : dump.recording.Intact live.classNames live.portrait? tiles)
    (hosting : loaded.Hosting dump.recording.draft) (defined : live.DefinedIn target)
    {roster : Roster} (gathered : Dump.rosterOf dump.recording.ledger = .ok roster)
    (sound : loaded.table.Sound) (same : loaded.table.records.Perm roster.records.toList)
    (distinct : (loaded.table.records.map (·.className)).Nodup) {names : List String}
    {name : String} (listed : name ∈ names) (records : last.Records name) :
    ∃ page ∈ last.pages, page.name = name ∧ ∃ values,
      loaded.fixedUp.Servable (loaded.Planned dump.recording.copies live (last.Archived names))
        target name page.toRecord values ∧
      values.map (·.1) = page.entries.toList.map (·.offset) := by
  obtain ⟨page, member, rfl, written⟩ := records
  obtain ⟨values, read, offsets, wanted⟩ := exists_values here recorded intact hosting member listed
  have present := member
  rw [pages_eq here] at member
  have truthful := recorded.pages page (Array.mem_toList_iff.mp member)
  have kept := Dump.records_rosterOf (Dump.nodup_names recorded.pages) gathered
  have filed : page.toRecord ∈ loaded.table.records := by
    rw [same.mem_iff, kept]
    exact List.mem_map_of_mem (List.mem_filter.mpr ⟨member, written⟩)
  refine ⟨page, present, rfl, values, ⟨RecordTable.find?_of_mem sound distinct filed, ?_, read,
    wanted⟩, offsets⟩
  intro other named
  obtain ⟨met, meets, rfl⟩ := List.mem_map.mp named
  obtain ⟨owner, known, title⟩ :=
    List.mem_map.mp (truthful.classes met (Array.mem_toList_iff.mp meets))
  obtain ⟨index, found⟩ := Array.mem_iff_getElem?.mp (Array.mem_toList_iff.mp known)
  have found : live.classes[(ClassId.mk index).index]? = some owner := found
  obtain ⟨other, there, _⟩ := defined.static found
  rw [← title, there]
  rfl

theorem page_inj (here : last.dump = some dump) (recorded : dump.recording.Truthful live)
    {page other : Page} (left : page ∈ last.pages) (right : other ∈ last.pages)
    (same : page.name = other.name) : page = other := by
  have distinct := Dump.nodup_names recorded.pages
  rw [← pages_eq here] at distinct
  exact List.inj_on_of_nodup_map distinct left right same

/-- A static field that is to be served has an entry on the page of its class. -/
theorem exists_page (here : last.dump = some dump) (recorded : dump.recording.Truthful live)
    {names : List String} {name : String} {offset : UInt32} {value : Value}
    (planned : loaded.Planned dump.recording.copies live (last.Archived names) name offset value) :
    ∃ page ∈ last.pages, page.name = name ∧ name ∈ names ∧
      offset ∈ page.entries.toList.map (·.offset) := by
  obtain ⟨ofClass, slot, known, archived, _⟩ := planned
  obtain ⟨page, present, owner, listed, entry, entered, position⟩ := archived
  have title : page.name = name := by
    have recorded := recorded.pages page (Array.mem_toList_iff.mp (pages_eq here ▸ present))
    obtain ⟨cls, found, title⟩ := recorded.named
    have again := Live.classNamed?_of_getElem? found
    rw [title, owner] at again
    exact Live.name_inj again known
  exact ⟨page, present, title, title ▸ listed,
    List.mem_map.mpr ⟨entry, Array.mem_toList_iff.mpr entered, position⟩⟩

/-- Serving recorded classes makes a fresh heap a copy of what their archived static
fields lead to. -/
theorem exists_served (here : last.dump = some dump) (recorded : dump.recording.Truthful live)
    (intact : dump.recording.Intact live.classNames live.portrait? tiles)
    (hosting : loaded.Hosting dump.recording.draft) (enabled : loaded.enabled = true)
    (defined : live.DefinedIn target) (fresh : target.objects = #[])
    {roster : Roster} (gathered : Dump.rosterOf dump.recording.ledger = .ok roster)
    (sound : loaded.table.Sound) (same : loaded.table.records.Perm roster.records.toList)
    (distinct : (loaded.table.records.map (·.className)).Nodup) (calls : List String)
    (records : ∀ name ∈ calls, last.Records name) :
    ∃ answers thaw, loaded.fixedUp.serveAll (Thaw.host loaded.fixedUp) (.start target) calls =
        .ok (answers, thaw) ∧
      List.Forall₂ (fun name answer => ∃ page ∈ last.pages, page.name = name ∧
        answer = some page.isPartial) calls answers ∧
      thaw.failed = 0 ∧ ∃ copy, live.Copied thaw.heap (last.Archived calls) copy := by
  have provides := provides here recorded intact hosting calls
  have servable (name : String) (listed : name ∈ calls) :=
    exists_servable here recorded intact hosting defined gathered sound same distinct listed
      (records name listed)
  choose! page member named values servable offsets using servable
  have functional := loaded.functional_planned dump.recording.copies live (last.Archived calls)
  have usable := Loaded.isUsable_fixedUp enabled
  obtain ⟨thaw, served, fit, stored, _⟩ := Loaded.serveAll_ok functional
    (fun _ _ _ planned => Loaded.Provides.fits defined planned) (provides.ready defined)
    (provides.roomy fresh) usable (fun name => (page name).toRecord) values calls servable
    (.start target)
  refine ⟨_, thaw, served, ?_, fit.failed, _, provides.copied fit fresh ?_ ?_⟩
  · rw [List.forall₂_map_right_iff, List.forall₂_same]
    exact fun name listed => ⟨page name, member name listed, named name listed, rfl⟩
  · intro ofClass offset archived
    obtain ⟨slot, value, _⟩ := exists_static here recorded archived
    exact Option.isSome_of_eq_some value
  · intro name offset value planned
    obtain ⟨other, present, title, listed, held⟩ := exists_page here recorded planned
    -- The page of the entry is the one that the record of the name was made from.
    have equal := page_inj here recorded present (member name listed)
      (title.trans (named name listed).symm)
    rw [equal, ← offsets name listed] at held
    obtain ⟨pair, paired, rfl⟩ := List.mem_map.mp held
    have wanted := (servable name listed).wanted pair paired
    rw [loaded.functional_planned _ _ _ _ _ _ _ planned wanted]
    exact stored name listed pair paired

/-- Whatever is asked of a session on a heap, the archive that it leaves is written and read
back, and wherever the mapper puts its regions they are loaded and fixed up. Served in any order
and any number of times into a fresh heap that defines the same classes, recorded classes are
all found and nothing fails; and the fresh heap ends up with the objects that their archived
static fields lead to, one copy of each and no others, with the same classes, slots and
references. Only writing depends on more than that: it fails if names are too long, or too many,
for the lengths in a file. -/
theorem roundTrip {requests : List Registration} (enabled : settings.enabled = true)
    (bounded : settings.Bounded) (started : start settings live = .ok session)
    (ran : session.run requests = .ok (last, .ok (some dumped)))
    (granted : dumped.archive.Granted mapper) (defined : live.DefinedIn target)
    (fresh : target.objects = #[]) :
    (live.Nameable → ∃ bytes, dumped.archive.toBytes = .ok bytes) ∧
    (∀ bytes, dumped.archive.toBytes = .ok bytes → Archive.ofBytes bytes = .ok dumped.archive) ∧
    ∃ loaded count fixed, Loaded.load dumped.archive true mapper = .ok loaded ∧
      loaded.fixup = .ok (.ok count, fixed) ∧
      ∀ calls : List String, (∀ name ∈ calls, last.Records name) →
        ∃ answers thaw, fixed.serveAll (Thaw.host fixed) (.start target) calls =
            .ok (answers, thaw) ∧
          List.Forall₂ (fun name answer => ∃ page ∈ last.pages, page.name = name ∧
            answer = some page.isPartial) calls answers ∧
          thaw.failed = 0 ∧ ∃ copy, live.Copied thaw.heap (last.Archived calls) copy := by
  obtain ⟨dump, here, recorded, done⟩ :=
    exists_dump (.start enabled bounded started) ran
  obtain ⟨tiles, intact⟩ := recorded.intact
  have framed := intact.linked.tiling.framed
  obtain ⟨carries, roster, gathered, written⟩ := Dump.of_finish done
  have wellFormed := carries.wellFormed framed
  obtain ⟨table, read, sound, same, distinct⟩ := roster.ofBytes_toBytes written
  obtain ⟨loaded, loads, holding, rfl⟩ := Loaded.exists_load read wellFormed.distinct granted
  have hosting := carries.hosting framed granted holding
  obtain ⟨count, fixes⟩ := (hosting.fixable intact.linked).fixup_eq
  refine ⟨fun nameable => exists_toBytes nameable intact done, fun bytes wrote => ?_,
    loaded, count, loaded.fixedUp, loads, fixes, fun calls records => ?_⟩
  · have back := wellFormed.ofBytes_toBytes wrote []
    rwa [List.append_nil] at back
  · exact exists_served here recorded intact hosting holding.enabled defined fresh gathered
      sound same distinct calls records

/-- Addresses in another order than that of the layout. -/
def pageAddress : Region → UInt64
  | .closed => 0x20000
  | .opened => 0x10000

private theorem pageAddress_le (region : Region) : (pageAddress region).toNat ≤ 0x20000 := by
  cases region <;> decide

/-- A mapper for small regions, whatever they were laid out for. -/
def pageMapper : Mapper := fun region _ length =>
  if small : length ≤ 4096 then
    .ok ⟨pageAddress region, length, by
      have low := pageAddress_le region
      unfold UInt64.size
      omega⟩
  else .error .tooShort

private theorem pageMapper_ok {region : Region} {length : Nat} (small : length ≤ 4096)
    (base : UInt64) :
    ∃ grant, pageMapper region base length = .ok grant ∧ grant.length = length ∧
      grant.address = pageAddress region := ⟨_, dif_pos small, rfl, rfl⟩

theorem granted_pageMapper {archive : Archive}
    (small : ∀ image ∈ archive.filled, image.byteLength ≤ 4096) : archive.Granted pageMapper where
  granted image member := by
    obtain ⟨grant, granted, long, address⟩ := pageMapper_ok (small image member) image.base
    refine ⟨grant, granted, Nat.le_of_eq long.symm, ?_⟩
    rw [address]
    cases image.region <;> decide
  apart first member second there different low high lies follows := by
    obtain ⟨_, below, _, start⟩ := pageMapper_ok (small first member) first.base
    obtain ⟨_, above, _, behind⟩ := pageMapper_ok (small second there) second.base
    rw [lies] at below
    rw [follows] at above
    cases below
    cases above
    have left := small first member
    have right := small second there
    rw [start, behind]
    cases here : first.region <;> cases other : second.region
    · exact absurd (here.trans other.symm) different
    · exact .inr (Nat.add_le_add_left right 0x10000 |>.trans (by decide))
    · exact .inl (Nat.add_le_add_left left 0x10000 |>.trans (by decide))
    · exact absurd (here.trans other.symm) different

theorem roundTrip_ring : ∃ session last dumped, start {} .ring = .ok session ∧
    session.run [.whole "Node", .field "Node" "first" .closed] =
      .ok (last, .ok (some dumped)) ∧
    ∃ loaded count fixed answers thaw copy,
      Loaded.load dumped.archive true pageMapper = .ok loaded ∧
      loaded.fixup = .ok (.ok count, fixed) ∧
      fixed.serveAll (Thaw.host fixed) (.start Live.ring.unused) ["Node", "Node"] =
        .ok (answers, thaw) ∧
      thaw.failed = 0 ∧ Live.ring.Copied thaw.heap (last.Archived ["Node", "Node"]) copy := by
  obtain ⟨session, started, ran⟩ : ∃ session, start {} .ring = .ok session ∧
      (left? (session.run [.whole "Node", .field "Node" "first" .closed])).any (fun left =>
        left.2.archive.filled.all (·.byteLength ≤ 4096) &&
          left.1.pages.any fun page => page.name == "Node" && page.isWritten) = true :=
    ⟨_, rfl, by decide +kernel⟩
  obtain ⟨⟨last, dumped⟩, found, checked⟩ := (Option.any_eq_true _ _).mp ran
  have result := of_left? found
  rw [Bool.and_eq_true, List.all_eq_true, List.any_eq_true] at checked
  obtain ⟨small, page, member, written⟩ := checked
  rw [Bool.and_eq_true, beq_iff_eq] at written
  obtain ⟨_, _, loaded, count, fixed, loads, fixes, serves⟩ :=
    roundTrip rfl (by decide) started result
    (granted_pageMapper fun image listed => of_decide_eq_true (small image listed))
    (Live.definedIn_unused .ring) rfl
  obtain ⟨answers, thaw, served, _, failed, copy, copied⟩ := serves ["Node", "Node"]
    fun name listed => by
      have same : name = "Node" := by simpa using listed
      exact ⟨page, member, written.1.trans same.symm, written.2⟩
  exact ⟨session, last, dumped, started, result, loaded, count, fixed, answers, thaw, copy, loads,
    fixes, served, failed, copied⟩

end Session

/-- A heap whose one class has a static field for an object that refers to another. -/
def Live.paired (name : String) : Live where
  classes := #[{
    shape := {
      name := name
      traits := .plain
      statics := #[⟨"front", 16, true⟩]
      placed := by decide }
    statics := #[.ref ⟨1⟩]
    sized := show [Slot.ref ⟨1⟩].length = 1 from rfl }]
  objects := #[⟨⟨0⟩, #[]⟩, ⟨⟨0⟩, #[.ref ⟨0⟩]⟩]
  distinct := List.nodup_singleton name
  classified index inside := match index, inside with
    | 0, _ | 1, _ => Nat.zero_lt_one
  numbered := show 1 ≤ UInt32.size by decide

private theorem Live.closed_paired (name : String) : (paired name).Closed := by
  apply closed_of_targets <;> simp [paired, targetsOf, Slot.target?]

namespace Session

/-- Settings under which a region has room for an object with one slot, and for no other. -/
def tight : Settings := { capacity := 16 }

/-- The dump of a pair that is to be archived whole. -/
private def pairedDump (name : String) (screening : Screening) (wholes : List ClassId)
    (screened : Bool) (recording : Recording) : Dump :=
  ⟨.paired name, 4, screening, #[], #[name], wholes, screened, recording⟩

-- A name is compared only here, with itself: all else is evaluated as for a name that is given.
private theorem screen_paired (name : String) (recording : Recording) :
    (pairedDump name (.start []) [] false recording).screen =
      .ok (pairedDump name ((Screening.start []).settle ⟨0⟩ true) [⟨0⟩] true recording) := by
  have found : (Live.paired name).classNamed? name = some ⟨0⟩ := by
    simp [Live.paired, Live.classNamed?]
  have wholes : [name].filterMap (Live.paired name).classNamed? = [⟨0⟩] := by
    rw [List.filterMap_cons_some found]
    rfl
  simp only [pairedDump, Dump.screen, wholes]
  with_unfolding_all rfl

/-- The walk through a pair is given up at the second object, for which there is no room. It leaves
the name of the class, and nothing else. -/
private theorem exists_left_paired (name : String) :
    ∃ dump last dumped, start tight (.paired name) = .ok ⟨some dump⟩ ∧
      (dump.nominateWhole name).2 = pairedDump name (.start []) [] false dump.recording ∧
      (pairedDump name ((Screening.start []).settle ⟨0⟩ true) [⟨0⟩] true
        dump.recording).archiveAll = .ok last ∧
      last.finish = .ok (.ok dumped) ∧ dumped.archive.names = #[name] ∧
      dumped.archive.regions.length = 2 := by
  with_unfolding_all exact ⟨_, _, _, rfl, rfl, rfl, rfl, rfl, rfl⟩

private theorem run_whole {name : String} {dump screened ended : Dump}
    (passed : (dump.nominateWhole name).2.screen = .ok screened) (once : screened.screened = true)
    (archived : screened.archiveAll = .ok ended) (finished : ended.finish = .ok (.ok dumped)) :
    (Session.mk (some dump)).run [.whole name] = .ok (⟨some ended⟩, .ok (some dumped)) := by
  have again : screened.screen = .ok screened := if_pos once
  have all : (dump.nominateWhole name).2.archiveAll = .ok ended := by
    rw [Dump.archiveAll, passed, ← archived, Dump.archiveAll, again]
  simp only [run, List.foldlM, register, nominateWhole, act, archiveAll, Session.finish, all,
    finished, bind, Except.bind, pure, Except.pure]
  rfl

/-- Whatever the name of its class, a pair leaves an archive with that name; with a long one, it is
not written. -/
theorem exists_unwritable {name : String} (long : UInt32.size ≤ name.utf8ByteSize) :
    ∃ session last dumped, start tight (.paired name) = .ok session ∧
      session.run [.whole name] = .ok (last, .ok (some dumped)) ∧
      dumped.archive.toBytes = .error .sectionSize := by
  obtain ⟨dump, ended, dumped, started, nominated, archived, finished, names, regions⟩ :=
    exists_left_paired name
  have ran := run_whole (nominated ▸ screen_paired name dump.recording) rfl archived finished
  have unfit : ¬ dumped.archive.sectionsFit = true := by
    simp [Archive.sectionsFit, names, long]
  refine ⟨⟨some dump⟩, ⟨some ended⟩, dumped, started, ran, ?_⟩
  rw [Archive.toBytes, if_neg (by rw [regions]; decide), if_neg unfit]

/-- The shortest name of this letter whose length does not fit in 32 bits. -/
def longName : String := String.ofList (List.replicate UInt32.size 'a')

private theorem le_longName : UInt32.size ≤ longName.utf8ByteSize := by
  have counted (count : Nat) : (String.ofList (List.replicate count 'a')).utf8ByteSize = count := by
    induction count with
    | zero => rfl
    | succ count ih =>
      rw [List.replicate_succ, String.ofList_cons, String.utf8ByteSize_append, ih,
        String.utf8ByteSize_singleton, Nat.add_comm]
      rfl
  exact Nat.le_of_eq (counted UInt32.size).symm

/-- Where the round trip ends. A walk that is given up leaves the names of its classes, so that an
archive without a record can have a name that is too long for a file. And a class that is only
listed in the record of another one has no record of its own: it is not served. -/
theorem roundTrip_limits :
    (tight.enabled = true ∧ tight.Bounded ∧ (Live.paired longName).Closed ∧
      ∃ session last dumped, start tight (.paired longName) = .ok session ∧
        session.run [.whole longName] = .ok (last, .ok (some dumped)) ∧
        dumped.archive.toBytes = .error .sectionSize) ∧
    ∃ session last dumped loaded count fixed thaw,
      start {} Recording.forked = .ok session ∧
      session.run [.whole "Tail"] = .ok (last, .ok (some dumped)) ∧
      (∃ page ∈ last.pages, page.isWritten = true ∧ "Leaf" ∈ page.classes.toList.map (·.2)) ∧
      Loaded.load dumped.archive true pageMapper = .ok loaded ∧
      loaded.fixup = .ok (.ok count, fixed) ∧
      fixed.serveAll (Thaw.host fixed) (.start Recording.forked.unused) ["Tail", "Leaf"] =
        .ok ([some false, none], thaw) := by
  refine ⟨⟨rfl, by decide, Live.closed_paired longName, exists_unwritable le_longName⟩, ?_⟩
  obtain ⟨session, started, ran⟩ : ∃ session, start {} Recording.forked = .ok session ∧
      (left? (session.run [.whole "Tail"])).any (fun left =>
        left.1.pages.any (fun page =>
          page.isWritten && (page.classes.toList.map (·.2)).contains "Leaf") &&
        (Loaded.load left.2.archive true pageMapper).toOption.any fun loaded =>
          loaded.fixup.toOption.any fun fixed => fixed.1.toOption.any fun _ =>
            (fixed.2.serveAll (Thaw.host fixed.2) (.start Recording.forked.unused)
              ["Tail", "Leaf"]).toOption.any fun served => served.1 == [some false, none]) = true :=
    ⟨_, rfl, by decide +kernel⟩
  obtain ⟨⟨last, dumped⟩, found, checked⟩ := (Option.any_eq_true _ _).mp ran
  obtain ⟨listed, checked⟩ := Bool.and_eq_true_iff.mp checked
  obtain ⟨loaded, loads, checked⟩ := any_toOption_iff.mp checked
  obtain ⟨⟨outcome, fixed⟩, fixes, checked⟩ := any_toOption_iff.mp checked
  obtain ⟨count, counted, checked⟩ := any_toOption_iff.mp checked
  obtain ⟨⟨answers, thaw⟩, served, answered⟩ := any_toOption_iff.mp checked
  obtain ⟨page, member, written⟩ := List.any_eq_true.mp listed
  obtain ⟨written, met⟩ := Bool.and_eq_true_iff.mp written
  obtain rfl : answers = [some false, none] := eq_of_beq answered
  obtain rfl : outcome = .ok count := counted
  exact ⟨session, last, dumped, loaded, count, fixed, thaw, started, of_left? found,
    ⟨page, member, written, List.contains_iff_mem.mp met⟩, loads, fixes, served⟩

end Session
end FrozenHeap
