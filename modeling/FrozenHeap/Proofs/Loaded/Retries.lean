import FrozenHeap.Proofs.Loaded.Relocating
import FrozenHeap.Proofs.RoundTrip
import Mathlib.Logic.Relation

/-! Fixing up again and again. A call may fix up one region and fail at the other, and is repeated
then. Whatever calls were made, each region is as it was mapped, or its references were replaced by
addresses, once. -/

namespace FrozenHeap

namespace Archive

/-- A region is as its image was mapped, or its references are addresses. -/
inductive Stage (archive : Archive) (mapper : Mapper) (image : Image) (resident : Resident) :
    Prop where
  | mapped (fresh : resident.fixed = false) (words : resident.words = image.words)
  | fixedUp (fixed : resident.fixed = true) (size : resident.words.size = image.words.size)
      (moves : ∀ index before after, image.words[index]? = some before →
        resident.words[index]? = some after →
          archive.Moves mapper (image.marks.isSet index) before after)

/-- Where the regions of an archive can be between calls. -/
structure Staged (archive : Archive) (mapper : Mapper) (state : Loaded) : Prop where
  filled : ∀ region resident, state.region? region = some resident →
    ∃ image ∈ archive.filled, image.region = region
  staged : ∀ image ∈ archive.filled, ∃ resident grant,
    state.region? image.region = some resident ∧
      mapper image.region image.base image.byteLength = .ok grant ∧
      resident.region = image.region ∧ resident.base = image.base ∧
      resident.marks = image.marks ∧ resident.live = grant.address ∧
      archive.Stage mapper image resident ∧ (archive.Stuck image → resident.fixed = false)

/-- What a call answers, and what it leaves alone. -/
structure Answers (archive : Archive) (state : Loaded) (outcome : Outcome FixupCount)
    (next : Loaded) : Prop where
  done_iff : (∃ region, outcome = .error (.alreadyFixedUp region)) ↔
    state.residents ≠ [] ∧ ∀ resident ∈ state.residents, resident.fixed = true
  idle : ∀ region, outcome = .error (.alreadyFixedUp region) → next = state
  kept : ∀ region resident, state.region? region = some resident → resident.fixed = true →
    next.region? region = some resident
  finished : ∀ count, outcome = .ok count → ∀ resident ∈ next.residents, resident.fixed = true
  failed : ∀ failure, outcome = .error failure → (∃ region, failure = .alreadyFixedUp region) ∨
    ∃ image ∈ archive.filled, archive.Stuck image ∧
      ∃ index narrow, failure = .danglingReference image.region index narrow

end Archive

namespace Loaded

variable {archive : Archive} {mapper : Mapper} {loaded state : Loaded}

/-- One call to fix up the regions leads from one state to another. -/
def Calls (before after : Loaded) : Prop := ∃ outcome, before.fixup = .ok (outcome, after)

theorem mem_residents_iff {resident : Resident} :
    resident ∈ loaded.residents ↔ ∃ region, loaded.region? region = some resident := by
  rw [residents, List.mem_filterMap]
  constructor
  · rintro ⟨region, _, found⟩
    exact ⟨region, found⟩
  · rintro ⟨region, found⟩
    exact ⟨region, by cases region <;> decide, found⟩

private theorem place_self {region : Region} {resident : Resident}
    (located : resident.region = region)
    (found : state.region? region = some resident) : state.place resident = state := by
  apply ext_region? (state.alike_place resident)
  intro other
  rw [region?_place, located]
  by_cases same : region = other
  · rw [if_pos same, ← same, found]
  · rw [if_neg same]

theorem relocates (loaded : Loaded) (address : UInt64) :
    ∃ live, loaded.relocations.relocate? address = .ok live :=
  Resident.relocates loaded.residents address

/-- Some regions were fixed up since the archive was loaded, those that are fit for it. -/
structure Partly (loaded state : Loaded) : Prop where
  alike : state.Alike loaded
  regions : ∀ region, state.region? region = loaded.region? region ∨
    ∃ resident, loaded.region? region = some resident ∧
      resident.Sound loaded.narrowing loaded.relocations ∧
      state.region? region = some (resident.fixedUp loaded.narrowing loaded.relocations)

namespace Partly

theorem start (loaded : Loaded) : Partly loaded loaded := ⟨⟨rfl, rfl, rfl, rfl⟩, fun _ => .inl rfl⟩

variable (partly : Partly loaded state)
include partly

theorem relocations : state.relocations = loaded.relocations := by
  have each (region : Region) : (state.region? region).map Resident.relocation =
      (loaded.region? region).map Resident.relocation := by
    rcases partly.regions region with same | ⟨resident, found, _, turned⟩
    · rw [same]
    · rw [turned, found, Option.map_some, Option.map_some, Resident.relocation_fixedUp]
  simp only [Loaded.relocations, residents, List.map_filterMap, each]

/-- A region that is not fixed up yet is as it was loaded. -/
theorem region?_of_fresh {region : Region} {resident : Resident}
    (found : state.region? region = some resident) (fresh : resident.fixed = false) :
    loaded.region? region = some resident := by
  rcases partly.regions region with same | ⟨_, _, _, turned⟩
  · exact same.symm.trans found
  · cases found.symm.trans turned
    cases fresh

theorem place {region : Region} {resident : Resident}
    (located : resident.region = region) (found : loaded.region? region = some resident)
    (sound : resident.Sound loaded.narrowing loaded.relocations) :
    Partly loaded (state.place (resident.fixedUp loaded.narrowing loaded.relocations)) where
  alike := by
    have frame := state.alike_place (resident.fixedUp loaded.narrowing loaded.relocations)
    have alike := partly.alike
    exact frame.trans alike
  regions other := by
    have place : (resident.fixedUp loaded.narrowing loaded.relocations).region = region := located
    rw [region?_place, place]
    by_cases same : region = other
    · subst same
      exact .inr ⟨resident, found, sound, if_pos rfl⟩
    · rw [if_neg same]
      exact partly.regions other

theorem isSome_region? (region : Region) :
    (state.region? region).isSome = (loaded.region? region).isSome := by
  rcases partly.regions region with same | ⟨_, found, _, turned⟩
  · rw [same]
  · rw [turned, found]
    rfl

end Partly

/-- What fixing up some regions does, when it was begun with others fixed up already. -/
structure Advances (loaded : Loaded) (regions : List Region) (state : Loaded)
    (outcome : Outcome FixupCount) (next : Loaded) : Prop where
  partly : Partly loaded next
  kept : ∀ region resident, state.region? region = some resident → resident.fixed = true →
    next.region? region = some resident
  finished : ∀ count, outcome = .ok count → ∀ region ∈ regions, ∀ resident,
    next.region? region = some resident → resident.fixed = true
  failed : ∀ failure, outcome = .error failure → ∃ region resident index narrow,
    loaded.region? region = some resident ∧
      ¬ resident.Sound loaded.narrowing loaded.relocations ∧
      failure = .danglingReference resident.region index narrow

namespace Advances

variable {regions : List Region} {region : Region} {resident : Resident}

theorem idle (partly : Partly loaded state) (count : FixupCount)
    (all : ∀ region ∈ regions, ∀ resident, state.region? region = some resident →
      resident.fixed = true) : Advances loaded regions state (.ok count) state where
  partly := partly
  kept _ _ here _ := here
  finished _ _ := all
  failed _ same := by cases same

theorem turn (partly : Partly loaded state) (located : resident.region = region)
    (found : state.region? region = some resident) (fresh : resident.fixed = false)
    (sound : resident.Sound loaded.narrowing loaded.relocations) (count : FixupCount) :
    Advances loaded [region] state (.ok count)
      (state.place (resident.fixedUp loaded.narrowing loaded.relocations)) where
  partly := partly.place located (partly.region?_of_fresh found fresh) sound
  kept other after there fixed := by
    have place : (resident.fixedUp loaded.narrowing loaded.relocations).region = region := located
    rw [region?_place, place]
    by_cases same : region = other
    · subst same
      cases found.symm.trans there
      cases fresh.symm.trans fixed
    · rw [if_neg same]
      exact there
  finished _ _ other member after there := by
    have place : (resident.fixedUp loaded.narrowing loaded.relocations).region = region := located
    rw [List.mem_singleton.mp member, region?_place, if_pos place] at there
    cases there
    rfl
  failed _ same := by cases same

theorem stop (partly : Partly loaded state) (found : loaded.region? region = some resident)
    (unsound : ¬ resident.Sound loaded.narrowing loaded.relocations) (index : Nat)
    (narrow : Narrow) : Advances loaded regions state
      (.error (.danglingReference resident.region index narrow)) state where
  partly := partly
  kept _ _ here _ := here
  finished _ same := by cases same
  failed failure same := by
    cases same
    exact ⟨region, resident, index, narrow, found, unsound, rfl⟩

theorem cons {middle next : Loaded} {outcome : Outcome FixupCount} {count : FixupCount}
    (first : Advances loaded [region] state (.ok count) middle)
    (others : Advances loaded regions middle outcome next) :
    Advances loaded (region :: regions) state outcome next where
  partly := others.partly
  kept other resident here fixed :=
    others.kept other resident (first.kept other resident here fixed) fixed
  finished more same other member resident here := by
    rcases List.mem_cons.mp member with rfl | member
    · have present := (others.partly.isSome_region? other).trans
        (first.partly.isSome_region? other).symm
      rw [here, Option.isSome_some] at present
      obtain ⟨before, there⟩ := Option.isSome_iff_exists.mp present.symm
      have fixed := first.finished count rfl other List.mem_cons_self before there
      cases here.symm.trans (others.kept other before there fixed)
      exact fixed
    · exact others.finished more same other member resident here
  failed := others.failed

end Advances

section Calls

variable (mapped : loaded.Mapped archive mapper)
include mapped

private theorem fixupRegion_advances (partly : Partly loaded state) (count : FixupCount)
    (region : Region) :
    ∃ outcome next, state.fixupRegion count region = .ok (outcome, next) ∧
      Advances loaded [region] state outcome next := by
  unfold fixupRegion
  cases found : state.region? region with
  | none =>
    refine ⟨_, _, rfl, .idle partly count fun other member resident here => ?_⟩
    cases (List.mem_singleton.mp member ▸ found).symm.trans here
  | some resident =>
    cases fresh : resident.fixed with
    | true =>
      refine ⟨_, _, if_pos fresh, .idle partly count fun other member after here => ?_⟩
      cases (List.mem_singleton.mp member ▸ found).symm.trans here
      exact fresh
    | false =>
      have before := partly.region?_of_fresh found fresh
      obtain ⟨image, _, located, here⟩ := mapped.mapped region resident before
      have place : resident.region = region := (Resident.of_map here).1.region.trans located
      simp only [fresh, Bool.false_eq_true, if_false, partly.alike.narrowing, partly.relocations]
      by_cases sound : resident.Sound loaded.narrowing loaded.relocations
      · obtain ⟨own, done⟩ := Resident.fixup_eq fresh sound
        rw [done]
        exact ⟨_, _, rfl, .turn partly place found fresh sound _⟩
      · obtain ⟨index, narrow, stopped⟩ := Resident.fixup_unsound loaded.relocates fresh sound
        simp only [stopped, place_self place found]
        exact ⟨_, _, rfl, .stop partly before sound index narrow⟩

private theorem fixupRegions_advances (partly : Partly loaded state) (count : FixupCount)
    (regions : List Region) :
    ∃ outcome next, state.fixupRegions count regions = .ok (outcome, next) ∧
      Advances loaded regions state outcome next := by
  induction regions generalizing state count with
  | nil => exact ⟨_, _, rfl, .idle partly count fun _ member => by cases member⟩
  | cons region rest ih =>
    obtain ⟨outcome, middle, first, advances⟩ := fixupRegion_advances mapped partly count region
    cases outcome with
    | error failure =>
      refine ⟨.error failure, middle, by simp only [fixupRegions, first], advances.partly,
        advances.kept, fun _ same => (by cases same), advances.failed⟩
    | ok more =>
      obtain ⟨outcome, next, others, behind⟩ := ih advances.partly more
      exact ⟨outcome, next, by simp only [fixupRegions, first, others], advances.cons behind⟩

theorem fixup_answers (partly : Partly loaded state) :
    ∃ outcome next, state.fixup = .ok (outcome, next) ∧ Partly loaded next ∧
      archive.Answers state outcome next := by
  unfold fixup
  cases listed : state.residents with
  | nil =>
    refine ⟨_, _, rfl, partly, ⟨?_, fun _ same => (by cases same), fun _ _ here _ => here, ?_,
      fun _ same => by cases same⟩⟩
    · constructor
      · rintro ⟨_, same⟩
        cases same
      · exact fun all => absurd listed all.1
    · intro _ _ resident member
      rw [listed] at member
      cases member
  | cons first rest =>
    have nonempty : state.residents ≠ [] := by simp [listed]
    have all_iff : (first.fixed && rest.all (·.fixed)) = true ↔
        ∀ resident ∈ state.residents, resident.fixed = true := by
      rw [listed, List.forall_mem_cons, Bool.and_eq_true, List.all_eq_true]
    by_cases all : (first.fixed && rest.all (·.fixed)) = true
    · refine ⟨_, _, if_pos all, partly, ⟨?_, fun _ _ => rfl, fun _ _ here _ => here,
        fun _ same => (by cases same), ?_⟩⟩
      · exact ⟨fun _ => ⟨nonempty, all_iff.mp all⟩, fun _ => ⟨_, rfl⟩⟩
      · intro failure same
        cases same
        exact .inl ⟨_, rfl⟩
    · obtain ⟨outcome, next, done, advances⟩ := fixupRegions_advances mapped partly {} Region.all
      have open' (region : Region) : outcome ≠ .error (.alreadyFixedUp region) := by
        intro same
        obtain ⟨_, _, _, _, _, _, dangling⟩ := advances.failed _ same
        cases dangling
      refine ⟨outcome, next, (if_neg all).trans done, advances.partly,
        ⟨?_, ?_, advances.kept, ?_, ?_⟩⟩
      · constructor
        · exact fun ⟨region, same⟩ => absurd same (open' region)
        · exact fun fixed => absurd (all_iff.mpr fixed.2) all
      · exact fun region same => absurd same (open' region)
      · intro count same resident member
        obtain ⟨region, here⟩ := mem_residents_iff.mp member
        exact advances.finished count same region (by cases region <;> decide) resident here
      · intro failure same
        obtain ⟨region, resident, index, narrow, found, unsound, rfl⟩ :=
          advances.failed failure same
        obtain ⟨image, member, _, here⟩ := mapped.mapped region resident found
        have stuck := not_not.mp fun free => unsound ((mapped.sound_iff member here).mpr free)
        exact .inr ⟨image, member, stuck, index, narrow, by rw [(Resident.of_map here).1.region]⟩

theorem staged (partly : Partly loaded state) : archive.Staged mapper state where
  filled region resident found := by
    have present := partly.isSome_region? region
    rw [found, Option.isSome_some] at present
    obtain ⟨before, there⟩ := Option.isSome_iff_exists.mp present.symm
    obtain ⟨image, member, located, _⟩ := mapped.mapped region before there
    exact ⟨image, member, located⟩
  staged image member := by
    obtain ⟨before, found, here⟩ := mapped.exists_mapped mapped.wellFormed member
    obtain ⟨carries, fresh, grant, granted, live⟩ := Resident.of_map here
    rcases partly.regions image.region with same | ⟨resident, there, sound, turned⟩
    · exact ⟨before, grant, same.trans found, granted, carries.region, carries.base, carries.marks,
        live, .mapped fresh carries.words, fun _ => fresh⟩
    · cases found.symm.trans there
      have free := (mapped.sound_iff member here).mp sound
      refine ⟨_, grant, turned, granted, carries.region, carries.base, carries.marks, live,
        .fixedUp rfl ?_ fun index word after held moved => ?_, fun stuck => absurd stuck free⟩
      · rw [Resident.fixedUp, Array.size_mapIdx, carries.words]
      · simp only [Resident.fixedUp, Array.getElem?_mapIdx, carries.words, held, Option.map_some,
          Option.some.injEq] at moved
        exact moved ▸ mapped.moves_moved here sound held

end Calls

/-- Whatever calls were made to fix up the regions of an archive that was read, each region is
as its image was mapped, or each of its references was replaced once, by the address that it
moves to. A region with a reference that leads nowhere stays as it was mapped. The next call
returns; it refuses if and only if there are regions and all of them are fixed up, and leaves
those alone that are. -/
theorem staged_of_calls {bytes : List UInt8} (read : Archive.ofBytes bytes = .ok archive)
    (loads : load archive true mapper = .ok loaded)
    (calls : Relation.ReflTransGen Calls loaded state) :
    archive.Staged mapper state ∧ ∃ outcome next, state.fixup = .ok (outcome, next) ∧
      archive.Answers state outcome next := by
  have mapped := mapped_of_load (Archive.wellFormed_of_ofBytes read) loads
  have partly : Partly loaded state := by
    induction calls with
    | refl => exact .start loaded
    | tail _ call ih =>
      obtain ⟨_, called⟩ := call
      obtain ⟨_, next, done, partly, _⟩ := fixup_answers mapped ih
      cases called.symm.trans done
      exact partly
  obtain ⟨outcome, next, done, _, answers⟩ := fixup_answers mapped partly
  exact ⟨staged mapped partly, outcome, next, done, answers⟩

end Loaded

namespace Archive

/-- An archive with one object in the closed region, which refers to itself, and a word of the open
region that refers to no image. -/
def torn : Archive where
  narrowing := ⟨0x1000, 3, by decide, by decide, by decide⟩
  names := #[]
  table := (TableLayout.block 1 []).toArray
  regions := [
    ⟨.closed, 0x2000, #[0x100000000, 0x200, 0], ((Marks.clear 3).add 1).add 2⟩,
    ⟨.opened, 0x3000, #[0x600], (Marks.clear 1).add 0⟩]

private theorem wellFormed_torn : torn.WellFormed where
  ordered := by decide
  covered := by
    unfold Image.Covered
    decide
  few := by decide

end Archive

theorem Loaded.staged_of_calls_torn : ∃ bytes loaded state, Archive.ofBytes bytes = .ok .torn ∧
    load .torn true Session.pageMapper = .ok loaded ∧
    loaded.fixup = .ok (.error (.danglingReference .opened 0 0x600), state) ∧
    (state.region? .closed).any (·.fixed) = true ∧ Archive.torn.Staged Session.pageMapper state ∧
    ∃ outcome next, state.fixup = .ok (outcome, next) ∧
      Archive.torn.Answers state outcome next := by
  obtain ⟨bytes, written⟩ : ∃ bytes, Archive.torn.toBytes = .ok bytes :=
    ⟨_, (if_neg (by decide)).trans (if_pos (by decide +kernel))⟩
  have read := Archive.wellFormed_torn.ofBytes_toBytes written []
  have ran : (load .torn true Session.pageMapper).toOption.any (fun loaded =>
      loaded.fixup.toOption.any fun called =>
        decide (called.1 = .error (.danglingReference .opened 0 0x600)) &&
          (called.2.region? .closed).any (·.fixed)) = true := by decide +kernel
  obtain ⟨loaded, loads, ran⟩ := any_toOption_iff.mp ran
  obtain ⟨⟨outcome, state⟩, called, checked⟩ := any_toOption_iff.mp ran
  rw [Bool.and_eq_true, decide_eq_true_eq] at checked
  obtain ⟨rfl, fixed⟩ := checked
  have result := staged_of_calls read loads (.single ⟨_, called⟩)
  exact ⟨_, loaded, state, read, loads, called, fixed, result⟩

end FrozenHeap
