import FrozenHeap.Proofs.Archive.Accepted
import FrozenHeap.Proofs.Loaded.Objects
import Mathlib.Data.List.Forall2

namespace FrozenHeap

/-- Was the image laid out around this address? -/
def Image.spans (image : Image) (address : Nat) : Bool :=
  decide (image.base.toNat ≤ address ∧ address < image.base.toNat + image.byteLength)

namespace Archive

/-- The first mapped image that was laid out around an address. -/
def home? (archive : Archive) (address : Nat) : Option Image :=
  archive.filled.find? (·.spans address)

/-- No narrow reference, or one that leads to no image. -/
def Homeless (archive : Archive) (word : UInt64) : Prop :=
  UInt32.size ≤ word.toNat ∨
    word ≠ 0 ∧ archive.home? (archive.narrowing.widen word.toUInt32).toNat = none

/-- A marked word of the image leads nowhere. -/
def Stuck (archive : Archive) (image : Image) : Prop :=
  ∃ index word, image.marks.isSet index = true ∧ image.words[index]? = some word ∧
    archive.Homeless word

/-- What becomes of a word, marked or not, when references turn into addresses. -/
inductive Moves (archive : Archive) (mapper : Mapper) : (marked : Bool) → UInt64 → UInt64 →
    Prop where
  | plain (word : UInt64) : Moves archive mapper false word word
  | null : Moves archive mapper true 0 0
  | reference {narrow : Narrow} {image : Image} {grant : Grant} {address : UInt64}
      (live : narrow ≠ 0)
      (home : archive.home? (archive.narrowing.widen narrow).toNat = some image)
      (granted : mapper image.region image.base image.byteLength = .ok grant)
      (moved : address.toNat = grant.address.toNat +
        ((archive.narrowing.widen narrow).toNat - image.base.toNat)) :
      Moves archive mapper true narrow.toUInt64 address

end Archive

namespace Resident

variable {mapper : Mapper} {image : Image} {resident : Resident}

private theorem spans_of_map (mapped : map mapper image = .ok resident) (address : UInt64) :
    resident.relocation.spans address = image.spans address.toNat := by
  have carries := (of_map mapped).1
  rw [Loaded.spans_relocation, Image.spans, byteLength, carries.base, carries.words]
  rfl

/-- The regions and the images around an address correspond. -/
theorem find?_spans {residents : List Resident} {images : List Image}
    (mapped : List.Forall₂ (fun resident image => map mapper image = .ok resident) residents images)
    (address : UInt64) :
    Option.Rel (fun resident image => map mapper image = .ok resident)
      (residents.find? (·.relocation.spans address)) (images.find? (·.spans address.toNat)) := by
  induction mapped with
  | nil => exact .none
  | cons first _ ih =>
    rw [List.find?_cons, List.find?_cons, spans_of_map first]
    split
    · exact .some first
    · exact ih

/-- An address moves with the region that is laid out around it. -/
theorem relocate?_of_spans {residents : List Resident} {address : UInt64}
    (found : residents.find? (·.relocation.spans address) = some resident) :
    ∃ live, Relocations.relocate? (residents.map (·.relocation)) address = .ok (some live) ∧
      live.toNat = resident.live.toNat + (address.toNat - resident.base.toNat) := by
  have inside := List.find?_some found
  rw [Loaded.spans_relocation, decide_eq_true_eq] at inside
  have fits := resident.fits
  have distance : (address - resident.base).toNat = address.toNat - resident.base.toNat :=
    UInt64.toNat_sub_of_le _ _ (UInt64.le_iff_toNat_le.mpr inside.1)
  have sum : resident.live.toNat + (address - resident.base).toNat < UInt64.size := by
    unfold byteLength at inside
    omega
  have moved : addWord resident.live (address - resident.base) =
      .ok (resident.live + (address - resident.base)) := if_pos sum
  refine ⟨resident.live + (address - resident.base), ?_, ?_⟩
  · have same : Relocations.spanning? (residents.map (·.relocation)) address =
        some resident.relocation := by
      rw [Relocations.spanning?, List.find?_map, Function.comp_def, found]
      rfl
    rw [Relocations.relocate?, same]
    simp only [relocation, moved, bind, Except.bind, pure, Except.pure]
  · rw [UInt64.toNat_add, Nat.mod_eq_of_lt sum, distance]

theorem relocate?_of_none {residents : List Resident} {address : UInt64}
    (absent : residents.find? (·.relocation.spans address) = none) :
    Relocations.relocate? (residents.map (·.relocation)) address = .ok none := by
  have same : Relocations.spanning? (residents.map (·.relocation)) address = none := by
    rw [Relocations.spanning?, List.find?_map, Function.comp_def, absent]
    rfl
  rw [Relocations.relocate?, same]

/-- Relocating has a meaning for all addresses, whatever regions are in memory. -/
theorem relocates (residents : List Resident) (address : UInt64) :
    ∃ live, Relocations.relocate? (residents.map (·.relocation)) address = .ok live := by
  cases found : residents.find? (·.relocation.spans address) with
  | none => exact ⟨none, relocate?_of_none found⟩
  | some resident =>
    obtain ⟨live, moved, _⟩ := relocate?_of_spans found
    exact ⟨some live, moved⟩

end Resident

namespace Loaded

variable {archive : Archive} {mapper : Mapper} {loaded : Loaded}

/-- Regions that hold the images of their own places, and nothing else, are in the order of
the images. -/
theorem forall₂_of_sublist {holds : Resident → Image → Prop} {located : Region → Option Resident}
    {regions : List Region} (distinct : regions.Nodup) {images : List Image}
    (ordered : (images.map (·.region)).Sublist regions)
    (all : ∀ image ∈ images, ∃ resident, located image.region = some resident ∧
      holds resident image)
    (others : ∀ region ∈ regions, region ∉ images.map (·.region) → located region = none) :
    List.Forall₂ holds (regions.filterMap located) images := by
  induction regions generalizing images with
  | nil =>
    rw [List.sublist_nil, List.map_eq_nil_iff] at ordered
    subst ordered
    exact .nil
  | cons region rest ih =>
    rw [List.nodup_cons] at distinct
    rcases List.sublist_cons_iff.mp ordered with behind | ⟨regions, split, behind⟩
    · have absent := others region List.mem_cons_self fun member => distinct.1 (behind.mem member)
      rw [List.filterMap_cons, absent]
      exact ih distinct.2 behind all fun other member =>
        others other (List.mem_cons_of_mem _ member)
    · obtain ⟨image, images, rfl, rfl, rfl⟩ := List.map_eq_cons_iff.mp split
      obtain ⟨resident, here, held⟩ := all image List.mem_cons_self
      rw [List.filterMap_cons, here]
      refine .cons held (ih distinct.2 behind
        (fun other member => all other (List.mem_cons_of_mem _ member)) fun other member new => ?_)
      apply others other (List.mem_cons_of_mem _ member)
      rw [List.map_cons, List.mem_cons, not_or]
      exact ⟨fun same => distinct.1 (same ▸ member), new⟩

/-- The filled images of an archive are in memory, in their order and as they were mapped. -/
structure Mapped (loaded : Loaded) (archive : Archive) (mapper : Mapper) : Prop
    extends loaded.Holding archive mapper where
  ordered : List.Forall₂ (fun resident image => Resident.map mapper image = .ok resident)
    loaded.residents archive.filled
  wellFormed : archive.WellFormed

theorem Holding.exists_mapped (holding : loaded.Holding archive mapper)
    (wellFormed : archive.WellFormed) {image : Image} (member : image ∈ archive.filled) :
    ∃ resident, loaded.region? image.region = some resident ∧
      Resident.map mapper image = .ok resident := by
  obtain ⟨resident, found⟩ := holding.present image member
  obtain ⟨other, there, same, mapped⟩ := holding.mapped _ _ found
  have equal := List.inj_on_of_nodup_map
    (wellFormed.distinct.sublist (List.filter_sublist.map _)) there member same
  exact ⟨resident, found, equal ▸ mapped⟩

theorem mapped_of_load (wellFormed : archive.WellFormed)
    (loads : load archive true mapper = .ok loaded) : loaded.Mapped archive mapper := by
  have holding := holding_of_load wellFormed.distinct loads
  refine ⟨holding, ?_, wellFormed⟩
  have kept : (archive.filled.map (·.region)).Sublist Region.all :=
    (List.filter_sublist.map _).trans wellFormed.ordered
  refine forall₂_of_sublist (by decide) kept
    (fun _ member => holding.exists_mapped wellFormed member) ?_
  intro region _ absent
  cases found : loaded.region? region with
  | none => rfl
  | some resident =>
    obtain ⟨image, member, same, _⟩ := holding.mapped _ _ found
    exact absurd (List.mem_map.mpr ⟨image, member, same⟩) absent

namespace Mapped

variable (mapped : loaded.Mapped archive mapper)
include mapped

private theorem target_homeless {resident : Resident} {index : Nat} {word : UInt64}
    (held : resident.words[index]? = some word) (homeless : archive.Homeless word) :
    ∀ address, resident.target loaded.narrowing loaded.relocations index ≠ .ok (.ok address) := by
  intro address found
  unfold Resident.target at found
  simp only [held] at found
  by_cases wide : UInt32.size ≤ word.toNat
  · rw [if_pos wide] at found
    cases found
  · obtain ⟨live, absent⟩ := homeless.resolve_left wide
    have corresponding := Resident.find?_spans mapped.ordered
      (archive.narrowing.widen word.toUInt32)
    rw [← Archive.home?, absent] at corresponding
    cases none : loaded.residents.find?
        (·.relocation.spans (archive.narrowing.widen word.toUInt32)) with
    | some resident =>
      rw [none] at corresponding
      cases corresponding
    | none =>
      rw [if_neg wide, if_neg live, mapped.narrowing, relocations,
        Resident.relocate?_of_none none] at found
      cases found

private theorem target_moves {resident : Resident} {index : Nat} {word : UInt64}
    (held : resident.words[index]? = some word) (housed : ¬ archive.Homeless word) :
    ∃ address, resident.target loaded.narrowing loaded.relocations index = .ok (.ok address) ∧
      archive.Moves mapper true word (address.getD word) := by
  rw [Archive.Homeless, not_or] at housed
  by_cases null : word = 0
  · subst null
    refine ⟨none, ?_, .null⟩
    simp only [Resident.target, held]
    rfl
  · have same : word.toUInt32.toUInt64 = word := by
      apply UInt64.toNat.inj
      rw [UInt32.toNat_toUInt64, UInt64.toNat_toUInt32]
      exact Nat.mod_eq_of_lt (Nat.lt_of_not_le housed.1)
    have live : word.toUInt32 ≠ 0 := by
      intro zero
      rw [zero] at same
      exact null same.symm
    cases home : archive.home? (archive.narrowing.widen word.toUInt32).toNat with
    | none => exact absurd ⟨null, home⟩ housed.2
    | some image =>
      have corresponding := Resident.find?_spans mapped.ordered
        (archive.narrowing.widen word.toUInt32)
      rw [← Archive.home?, home] at corresponding
      cases found : loaded.residents.find?
          (·.relocation.spans (archive.narrowing.widen word.toUInt32)) with
      | none =>
        rw [found] at corresponding
        cases corresponding
      | some around =>
        rw [found] at corresponding
        cases corresponding with
        | some there =>
          obtain ⟨carries, _, grant, granted, address⟩ := Resident.of_map there
          obtain ⟨moved, relocated, distance⟩ := Resident.relocate?_of_spans found
          refine ⟨some moved, ?_, ?_⟩
          · simp only [Resident.target, held, if_neg housed.1, if_neg null, mapped.narrowing,
              relocations, relocated]
          · rw [carries.base, address] at distance
            have reference := Archive.Moves.reference live home granted distance
            rw [same] at reference
            exact reference

/-- All marked words of a mapped image have targets, or it is stuck. -/
theorem sound_iff {resident : Resident} {image : Image} (member : image ∈ archive.filled)
    (here : Resident.map mapper image = .ok resident) :
    resident.Sound loaded.narrowing loaded.relocations ↔ ¬ archive.Stuck image := by
  have carries := (Resident.of_map here).1
  constructor
  · rintro sound ⟨index, word, marked, held, homeless⟩
    rw [← carries.marks] at marked
    rw [← carries.words] at held
    obtain ⟨address, target⟩ := sound index marked
    exact mapped.target_homeless held homeless address target
  · intro free index marked
    rw [carries.marks] at marked
    have inside : index < image.words.size :=
      mapped.wellFormed.covered image (List.mem_of_mem_filter member) ▸
        Marks.lt_length_of_isSet marked
    have held := Array.getElem?_eq_getElem inside
    have housed : ¬ archive.Homeless image.words[index] := fun homeless =>
      free ⟨index, _, marked, held, homeless⟩
    obtain ⟨address, target, _⟩ :=
      mapped.target_moves ((congrArg (·[index]?) carries.words).trans held) housed
    exact ⟨address, target⟩

theorem moves_moved {resident : Resident} {image : Image}
    (here : Resident.map mapper image = .ok resident)
    (sound : resident.Sound loaded.narrowing loaded.relocations) {index : Nat} {word : UInt64}
    (held : image.words[index]? = some word) :
    archive.Moves mapper (image.marks.isSet index) word
      (resident.moved loaded.narrowing loaded.relocations index word) := by
  have carries := (Resident.of_map here).1
  rw [← carries.words] at held
  rw [← carries.marks, Resident.moved]
  cases marked : resident.marks.isSet index with
  | false => exact .plain word
  | true =>
    have target := Resident.target_of_sound sound marked
    have housed : ¬ archive.Homeless word := fun homeless =>
      mapped.target_homeless held homeless _ target
    obtain ⟨address, found, moves⟩ := mapped.target_moves held housed
    rw [target] at found
    cases found
    exact moves

end Mapped
end Loaded
end FrozenHeap
