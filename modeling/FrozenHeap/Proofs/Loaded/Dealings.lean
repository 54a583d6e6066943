import FrozenHeap.Proofs.Loaded.Readable
import FrozenHeap.Proofs.Parallel
import FrozenHeap.Proofs.RecordTable.Accepted

/-! What passes between a loaded archive and a process. A process is asked for classes one by one,
and it is told either all the values that a record has for a class or none: whatever could spoil a
value is found out before the first one is told. -/

namespace FrozenHeap

/-- What a process is asked, with its answer, and what it is told. -/
inductive Dealing where
  | asked (name : String) (granted : Bool)
  | told (name : String) (offset : UInt32) (value : Value)
  deriving DecidableEq, Repr

/-- How a process answers when it is asked for a class, and what becomes of it when it is
told a value. -/
structure Hooks (State : Type) where
  resolve : State → String → Bool × State
  store : State → String → UInt32 → Value → State

/-- A process that notes down all its dealings. -/
def Hooks.noting (hooks : Hooks State) : Host (State × List Dealing) where
  resolve noted name :=
    let (granted, state) := hooks.resolve noted.1 name
    (granted, state, noted.2 ++ [.asked name granted])
  store noted name offset value :=
    .ok (hooks.store noted.1 name offset value, noted.2 ++ [.told name offset value])

namespace Loaded

variable {loaded : Loaded}

section Noting

variable {State : Type} (hooks : Hooks State) (state : State) (noted : List Dealing)

/-- Classes are asked for in order: all of them are granted, or one is the first that is refused. -/
theorem resolveAll_noting (names : List String) :
    (∃ after, resolveAll hooks.noting (state, noted) names =
      (true, after, noted ++ names.map (.asked · true))) ∨
    ∃ front other back after, names = front ++ other :: back ∧
      resolveAll hooks.noting (state, noted) names =
        (false, after, noted ++ (front.map (.asked · true) ++ [.asked other false])) := by
  induction names generalizing state noted with
  | nil => exact .inl ⟨state, by simp [resolveAll]⟩
  | cons name rest ih =>
    cases answer : hooks.resolve state name with
    | mk granted next =>
      cases granted with
      | false =>
        refine .inr ⟨[], name, rest, next, rfl, ?_⟩
        simp [resolveAll, Hooks.noting, answer]
      | true =>
        have first : resolveAll hooks.noting (state, noted) (name :: rest) =
            resolveAll hooks.noting (next, noted ++ [.asked name true]) rest := by
          simp [resolveAll, Hooks.noting, answer]
        rcases ih next (noted ++ [.asked name true]) with
          ⟨after, done⟩ | ⟨front, other, back, after, split, done⟩
        · exact .inl ⟨after, by rw [first, done]; simp⟩
        · exact .inr ⟨name :: front, other, back, after, by rw [split]; rfl,
            by rw [first, done]; simp⟩

private theorem foldlM_noting (name : String) (values : List (UInt32 × Value)) :
    ∃ after, values.foldlM (fun state (offset, value) =>
        hooks.noting.store state name offset value) (state, noted) =
      .ok (after, noted ++ values.map fun pair => .told name pair.1 pair.2) := by
  induction values generalizing state noted with
  | nil => exact ⟨state, by simp [pure, Except.pure]⟩
  | cons pair rest ih =>
    obtain ⟨after, done⟩ :=
      ih (hooks.store state name pair.1 pair.2) (noted ++ [.told name pair.1 pair.2])
    refine ⟨after, ?_⟩
    rw [List.foldlM_cons]
    refine (bind_eq_ok_iff.mpr ⟨_, rfl, done⟩).trans ?_
    simp

end Noting

/-- How a class is dealt with, and what is answered: all of its entries are told, or none. -/
structure Deals (loaded : Loaded) (name : String) (answer : Option Bool) (dealings : List Dealing) :
    Prop where
  /-- A class that is not found is told nothing. -/
  untold : answer = none → ∀ owner offset value, .told owner offset value ∉ dealings
  /-- Its classes are asked for in order, up to the first that is refused. -/
  asked : answer = none → dealings = [] ∨
    ∃ record, loaded.table.records.find? (·.className == name) = some record ∧
      (dealings = record.classes.map (.asked · true) ∨
        ∃ front other back, record.classes = front ++ other :: back ∧
          dealings = front.map (.asked · true) ++ [.asked other false])
  /-- A class that is found is told the value of each entry of its record, once and in order, when
  all classes of the record are granted. -/
  told : ∀ isPartial, answer = some isPartial →
    ∃ record values, loaded.table.records.find? (·.className == name) = some record ∧
      record.isPartial = isPartial ∧ List.Forall₂ loaded.Reads record.entries values ∧
      dealings = record.classes.map (.asked · true) ++
        List.zipWith (fun entry value => .told name entry.offset value) record.entries values
  /-- Why a class is not found. -/
  missed_iff : answer = none ↔ loaded.enabled = false ∨
    (∃ resident ∈ loaded.residents, resident.fixed = false) ∨
    loaded.table.records.find? (·.className == name) = none ∨
    ∃ record, loaded.table.records.find? (·.className == name) = some record ∧
      ((∃ other, .asked other false ∈ dealings) ∨ ∃ entry ∈ record.entries, loaded.Spoilt entry)

private theorem isUsable_iff : loaded.isUsable = true ↔
    loaded.enabled = true ∧ ∀ resident ∈ loaded.residents, resident.fixed = true := by
  rw [isUsable, Bool.and_eq_true, List.all_eq_true]

namespace Deals

variable {name : String}

theorem idle (idle : loaded.isUsable = false) : loaded.Deals name none [] where
  untold _ _ _ _ := List.not_mem_nil
  asked _ := .inl rfl
  told := nofun
  missed_iff := by
    refine iff_of_true rfl ?_
    by_cases enabled : loaded.enabled = true
    · have waits : ¬ ∀ resident ∈ loaded.residents, resident.fixed = true := fun fixed =>
        Bool.eq_false_iff.mp idle (isUsable_iff.mpr ⟨enabled, fixed⟩)
      simp only [not_forall, Bool.not_eq_true] at waits
      obtain ⟨resident, member, fresh⟩ := waits
      exact .inr (.inl ⟨resident, member, fresh⟩)
    · exact .inl (Bool.eq_false_iff.mpr enabled)

theorem unlisted (absent : loaded.table.records.find? (·.className == name) = none) :
    loaded.Deals name none [] where
  untold _ _ _ _ := List.not_mem_nil
  asked _ := .inl rfl
  told := nofun
  missed_iff := iff_of_true rfl (.inr (.inr (.inl absent)))

variable {record : Record}
  (found : loaded.table.records.find? (·.className == name) = some record)
include found

theorem refused {front back : List String} {other : String}
    (split : record.classes = front ++ other :: back) :
    loaded.Deals name none (front.map (.asked · true) ++ [.asked other false]) where
  untold _ _ _ _ := by simp
  asked _ := .inr ⟨record, found, .inr ⟨front, other, back, split, rfl⟩⟩
  told := nofun
  missed_iff := iff_of_true rfl
    (.inr (.inr (.inr ⟨record, found, .inl ⟨other, List.mem_append_right _ List.mem_cons_self⟩⟩)))

theorem spoilt (spoilt : ∃ entry ∈ record.entries, loaded.Spoilt entry) :
    loaded.Deals name none (record.classes.map (.asked · true)) where
  untold _ _ _ _ := by simp
  asked _ := .inr ⟨record, found, .inl rfl⟩
  told := nofun
  missed_iff := iff_of_true rfl (.inr (.inr (.inr ⟨record, found, .inr spoilt⟩)))

theorem served (usable : loaded.isUsable = true) {values : List Value}
    (reads : List.Forall₂ loaded.Reads record.entries values) :
    loaded.Deals name (some record.isPartial) (record.classes.map (.asked · true) ++
      List.zipWith (fun entry value => .told name entry.offset value) record.entries values) where
  untold := nofun
  asked := nofun
  told isPartial same := by
    cases same
    exact ⟨record, values, found, rfl, reads, rfl⟩
  missed_iff := by
    refine iff_of_false nofun ?_
    obtain ⟨enabled, fixed⟩ := isUsable_iff.mp usable
    rintro (disabled | ⟨resident, member, fresh⟩ | absent | ⟨other, again, refused | spoilt⟩)
    · exact Bool.false_ne_true (disabled.symm.trans enabled)
    · exact Bool.false_ne_true (fresh.symm.trans (fixed resident member))
    · cases found.symm.trans absent
    · obtain ⟨other, member⟩ := refused
      rcases List.mem_append.mp member with asked | told
      · obtain ⟨_, _, same⟩ := List.mem_map.mp asked
        cases same
      · obtain ⟨index, inside, same⟩ := List.mem_iff_getElem.mp told
        rw [List.getElem_zipWith] at same
        cases same
    · cases found.symm.trans again
      obtain ⟨entry, member, spoilt⟩ := spoilt
      obtain ⟨_, _, value⟩ := exists_right_of_forall₂ reads entry member
      exact value.not_spoilt spoilt

end Deals

private theorem exists_deals (sound : loaded.table.Sound) {State : Type} (hooks : Hooks State)
    (state : State) (name : String) : ∃ answer after dealings,
      loaded.serve hooks.noting (state, []) name = .ok (answer, after, dealings) ∧
        loaded.Deals name answer dealings := by
  unfold serve
  rw [RecordTable.find?_eq sound]
  by_cases usable : loaded.isUsable = true
  · rw [if_pos usable]
    cases found : loaded.table.records.find? (·.className == name) with
    | none => exact ⟨none, state, [], rfl, .unlisted found⟩
    | some record =>
      dsimp only
      rcases resolveAll_noting hooks state [] record.classes with
        ⟨asked, granted⟩ | ⟨front, other, back, after, split, refused⟩
      · rw [granted]
        rcases loaded.valuesOf?_cases record.entries with ⟨values, read, reads⟩ | ⟨read, spoilt⟩
        · obtain ⟨after, done⟩ :=
            foldlM_noting hooks asked (record.classes.map (.asked · true)) name
            (List.zipWith (fun entry value => (entry.offset, value)) record.entries values)
          refine ⟨some record.isPartial, after, _, ?_, .served found usable reads⟩
          rw [List.map_zipWith] at done
          simp only [read, List.nil_append, done, bind, Except.bind, pure, Except.pure]
        · exact ⟨none, asked, _, by simp only [read, List.nil_append, bind, Except.bind, pure,
            Except.pure], .spoilt found spoilt⟩
      · rw [refused]
        exact ⟨none, after, _, rfl, .refused found split⟩
  · rw [if_neg usable]
    exact ⟨none, state, [], rfl, .idle (Bool.eq_false_iff.mpr usable)⟩

variable {archive : Archive} {enabled : Bool} {mapper : Mapper} {first : Loaded}

private theorem alike_of_placed {images : List Image} {before after : Loaded}
    (placed : images.foldlM (fun loaded image => do
      return loaded.place (← Resident.map mapper image)) before = (.ok after : Outcome Loaded)) :
    after.Alike before := by
  induction images generalizing before with
  | nil =>
    cases placed
    exact .refl _
  | cons image rest ih =>
    rw [List.foldlM_cons] at placed
    obtain ⟨next, here, placed⟩ := bind_eq_ok_iff.mp placed
    obtain ⟨resident, _, same⟩ := bind_eq_ok_iff.mp here
    cases same
    exact (ih placed).trans (before.alike_place resident)

private theorem of_load (loads : load archive enabled mapper = .ok loaded) :
    loaded.enabled = enabled ∧ RecordTable.ofBytes archive.table = .ok loaded.table := by
  unfold load at loads
  cases read : RecordTable.ofBytes archive.table with
  | error cause =>
    rw [read] at loads
    cases loads
  | ok table =>
    rw [read] at loads
    cases enabled with
    | false =>
      cases loads
      exact ⟨rfl, rfl⟩
    | true =>
      have alike := alike_of_placed loads
      exact ⟨alike.enabled, congrArg Except.ok alike.table.symm⟩

private theorem alike_fixupRegion {count : FixupCount} {region : Region}
    {outcome : Outcome FixupCount}
    {next : Loaded} (done : loaded.fixupRegion count region = .ok (outcome, next)) :
    next.Alike loaded := by
  unfold fixupRegion at done
  split at done
  · cases done
    exact .refl _
  · split at done
    · cases done
      exact .refl _
    · split at done
      · cases done
      · cases done
        exact loaded.alike_place _

private theorem alike_fixupRegions {count : FixupCount} {regions : List Region}
    {outcome : Outcome FixupCount} {next : Loaded}
    (done : loaded.fixupRegions count regions = .ok (outcome, next)) : next.Alike loaded := by
  induction regions generalizing loaded count with
  | nil =>
    cases done
    exact .refl _
  | cons region rest ih =>
    unfold fixupRegions at done
    split at done
    · cases done
    · rename_i failed
      cases done
      exact alike_fixupRegion failed
    · rename_i turned
      exact (ih done).trans (alike_fixupRegion turned)

theorem Calls.alike {before after : Loaded} (call : Calls before after) : after.Alike before := by
  obtain ⟨outcome, done⟩ := call
  unfold fixup at done
  split at done
  · cases done
    exact .refl _
  · split at done
    · cases done
      exact .refl _
    · exact alike_fixupRegions done

/-- Whatever an archive holds, whatever calls were made to fix it up, and however a process answers,
serving a class returns. Either the class is not found and the process is told nothing, or it is
told the value of each entry of the class's record, once and in order. The class is not found if and
only if archiving is switched off, a region is not fixed up, the class has no record, one of the
classes of the record is refused, or one of its entries is a reference that is too wide, that leads
into no region of its own kind, or that leads to no object. -/
theorem deals_of_calls (loads : load archive enabled mapper = .ok first)
    (calls : Relation.ReflTransGen Calls first loaded) :
    loaded.enabled = enabled ∧ RecordTable.ofBytes archive.table = .ok loaded.table ∧
      ∀ {State : Type} (hooks : Hooks State) (state : State) (name : String),
        ∃ answer after dealings,
          loaded.serve hooks.noting (state, []) name = .ok (answer, after, dealings) ∧
            loaded.Deals name answer dealings := by
  have alike : loaded.Alike first := by
    induction calls with
    | refl => exact .refl _
    | tail _ call ih => exact call.alike.trans ih
  obtain ⟨switched, read⟩ := of_load loads
  rw [← alike.table] at read
  exact ⟨alike.enabled.trans switched, read, fun hooks state name =>
    exists_deals (RecordTable.readFrom_of_ofBytes read).sound hooks state name⟩

end Loaded

/-- An archive with one object, which refers to itself, and two records: the entry of the second one
names the wrong region. -/
def Archive.misnamed : Archive where
  narrowing := torn.narrowing
  names := #["Node"]
  table := (TableLayout.block 1 [
    .of ⟨"Sound", [⟨16, .reference .closed, 0x200⟩, ⟨24, .primitive, 7⟩], ["Node", "Leaf"], true⟩,
    .of ⟨"Wrong", [⟨16, .primitive, 7⟩, ⟨24, .reference .opened, 0x200⟩], ["Node"], false⟩]).toArray
  regions := [⟨.closed, 0x2000, #[0x100000000, 0x200], (Marks.clear 2).add 1⟩]

private theorem Archive.wellFormed_misnamed : misnamed.WellFormed where
  ordered := by decide
  covered := by
    unfold Image.Covered
    decide
  few := by decide

def Hooks.lacking (missing : String) : Hooks Unit where
  resolve _ name := (name != missing, ())
  store _ _ _ _ := ()

theorem Loaded.deals_of_calls_misnamed : ∃ bytes first loaded,
    Archive.ofBytes bytes = .ok .misnamed ∧ load .misnamed true Session.pageMapper = .ok first ∧
      Calls first loaded ∧
      loaded.Deals "Sound" (some true) [.asked "Node" true, .asked "Leaf" true,
        .told "Sound" 16 (.object (Session.pageAddress .closed)), .told "Sound" 24 (.bits 7)] ∧
      loaded.Deals "Sound" none [.asked "Node" true, .asked "Leaf" false] ∧
      loaded.Deals "Wrong" none [.asked "Node" true] := by
  obtain ⟨bytes, written⟩ : ∃ bytes, Archive.misnamed.toBytes = .ok bytes :=
    ⟨_, (if_neg (by decide)).trans (if_pos (by decide +kernel))⟩
  have read := Archive.wellFormed_misnamed.ofBytes_toBytes written []
  have ran : (load .misnamed true Session.pageMapper).toOption.any (fun first =>
      first.fixup.toOption.any fun called =>
        (called.2.serve (Hooks.lacking "").noting ((), []) "Sound").toOption.any
          (· = (some true, (), [.asked "Node" true, .asked "Leaf" true,
            .told "Sound" 16 (.object (Session.pageAddress .closed)),
              .told "Sound" 24 (.bits 7)])) &&
        (called.2.serve (Hooks.lacking "Leaf").noting ((), []) "Sound").toOption.any (· = (none, (),
          [.asked "Node" true, .asked "Leaf" false])) &&
        (called.2.serve (Hooks.lacking "").noting ((), []) "Wrong").toOption.any (· = (none, (),
          [.asked "Node" true]))) = true := by decide +kernel
  obtain ⟨first, loads, ran⟩ := any_toOption_iff.mp ran
  obtain ⟨⟨outcome, loaded⟩, called, ran⟩ := any_toOption_iff.mp ran
  rw [Bool.and_eq_true, Bool.and_eq_true, any_toOption_iff, any_toOption_iff,
    any_toOption_iff] at ran
  obtain ⟨⟨⟨_, told, here⟩, _, refused, there⟩, _, spoilt, elsewhere⟩ := ran
  rw [of_decide_eq_true here] at told
  rw [of_decide_eq_true there] at refused
  rw [of_decide_eq_true elsewhere] at spoilt
  obtain ⟨_, _, serves⟩ := deals_of_calls loads (.single ⟨_, called⟩)
  obtain ⟨_, _, _, done, whole⟩ := serves (Hooks.lacking "") () "Sound"
  cases told.symm.trans done
  obtain ⟨_, _, _, done, lacking⟩ := serves (Hooks.lacking "Leaf") () "Sound"
  cases refused.symm.trans done
  obtain ⟨_, _, _, done, wrong⟩ := serves (Hooks.lacking "") () "Wrong"
  cases spoilt.symm.trans done
  exact ⟨bytes, first, loaded, by simpa using read, loads, ⟨_, called⟩, whole, lacking, wrong⟩

end FrozenHeap
