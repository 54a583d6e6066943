import FrozenHeap.Proofs.Loaded.Fixup

namespace FrozenHeap

namespace Resident

variable {mapper : Mapper} {image : Image} {resident : Resident}

/-- What is mapped is the image, at the address that was granted. -/
structure Carries (resident : Resident) (image : Image) : Prop where
  region : resident.region = image.region
  base : resident.base = image.base
  words : resident.words = image.words
  marks : resident.marks = image.marks

theorem of_map (mapped : map mapper image = .ok resident) :
    resident.Carries image ∧ resident.fixed = false ∧
      ∃ grant, mapper image.region image.base image.byteLength = .ok grant ∧
        resident.live = grant.address := by
  unfold map at mapped
  split at mapped
  · cases mapped
  · rename_i grant granted
    split at mapped
    · cases mapped
      exact ⟨⟨rfl, rfl, rfl, rfl⟩, rfl, grant, granted, rfl⟩
    · cases mapped

private theorem exists_map {grant : Grant}
    (granted : mapper image.region image.base image.byteLength = .ok grant)
    (long : image.byteLength ≤ grant.length) : ∃ resident, map mapper image = .ok resident := by
  unfold map
  rw [granted]
  simp only [dif_pos long]
  exact ⟨_, rfl⟩

@[simp] theorem relocation_fixedUp (resident : Resident) (narrowing : Narrowing)
    (relocations : Relocations) :
    (resident.fixedUp narrowing relocations).relocation = resident.relocation := by
  simp [relocation, byteLength, fixedUp]

end Resident

/-- The images of an archive that are mapped. -/
def Archive.filled (archive : Archive) : List Image :=
  archive.regions.filter fun image => !image.words.isEmpty

/-- Memory is granted to the images of an archive: enough for each, not at null, and apart. -/
structure Archive.Granted (archive : Archive) (mapper : Mapper) : Prop where
  granted : ∀ image ∈ archive.filled, ∃ grant,
    mapper image.region image.base image.byteLength = .ok grant ∧
      image.byteLength ≤ grant.length ∧ grant.address ≠ 0
  apart : ∀ first ∈ archive.filled, ∀ second ∈ archive.filled, first.region ≠ second.region →
    ∀ low high, mapper first.region first.base first.byteLength = .ok low →
      mapper second.region second.base second.byteLength = .ok high →
        low.address.toNat + first.byteLength ≤ high.address.toNat ∨
          high.address.toNat + second.byteLength ≤ low.address.toNat

namespace Loaded

variable {loaded : Loaded} {mapper : Mapper} {archive : Archive}

theorem region?_place (loaded : Loaded) (resident : Resident) (region : Region) :
    (loaded.place resident).region? region =
      if resident.region = region then some resident else loaded.region? region := by
  unfold place
  cases here : resident.region <;> cases region <;> simp [region?]

/-- Nothing but the resident regions differs. -/
structure Alike (left right : Loaded) : Prop where
  enabled : left.enabled = right.enabled
  narrowing : left.narrowing = right.narrowing
  names : left.names = right.names
  table : left.table = right.table

theorem Alike.refl (loaded : Loaded) : loaded.Alike loaded := ⟨rfl, rfl, rfl, rfl⟩

theorem Alike.trans {one two three : Loaded} (alike : one.Alike two) (other : two.Alike three) :
    one.Alike three where
  enabled := alike.enabled.trans other.enabled
  narrowing := alike.narrowing.trans other.narrowing
  names := alike.names.trans other.names
  table := alike.table.trans other.table

theorem alike_place (loaded : Loaded) (resident : Resident) :
    (loaded.place resident).Alike loaded := by
  unfold place
  split <;> exact ⟨rfl, rfl, rfl, rfl⟩

/-- Mapping images of distinct regions puts each of them in place. -/
theorem exists_placed {images : List Image} (distinct : (images.map (·.region)).Nodup)
    (mapped : ∀ image ∈ images, ∃ resident, Resident.map mapper image = .ok resident)
    (loaded : Loaded) :
    ∃ after : Loaded, images.foldlM (fun loaded image => do
        return loaded.place (← Resident.map mapper image)) loaded =
          (.ok after : Outcome Loaded) ∧
      after.Alike loaded ∧
      (∀ image ∈ images, ∃ resident, Resident.map mapper image = .ok resident ∧
        after.region? image.region = some resident) ∧
      ∀ region, region ∉ images.map (·.region) → after.region? region = loaded.region? region := by
  induction images generalizing loaded with
  | nil => exact ⟨loaded, rfl, .refl loaded, fun _ member => (by cases member), fun _ _ => rfl⟩
  | cons image rest ih =>
    rw [List.map_cons, List.nodup_cons] at distinct
    obtain ⟨resident, here⟩ := mapped image List.mem_cons_self
    obtain ⟨after, done, alike, all, others⟩ := ih distinct.2
      (fun other member => mapped other (List.mem_cons_of_mem _ member)) (loaded.place resident)
    have region := (Resident.of_map here).1.region
    have frame := loaded.alike_place resident
    refine ⟨after, ?_, ?_, ?_, ?_⟩
    · rw [List.foldlM_cons, here]
      exact done
    · exact alike.trans frame
    · intro other member
      rcases List.mem_cons.mp member with rfl | behind
      · refine ⟨resident, here, ?_⟩
        rw [others _ distinct.1, region?_place, if_pos region]
      · exact all other behind
    · intro other absent
      rw [List.map_cons, List.mem_cons, not_or] at absent
      rw [others other absent.2, region?_place, if_neg fun same =>
        absent.1 (same.symm.trans region)]

/-- An archive is loaded: with its regions that are not empty, each where it was mapped. -/
structure Holding (loaded : Loaded) (archive : Archive) (mapper : Mapper) : Prop where
  enabled : loaded.enabled = true
  narrowing : loaded.narrowing = archive.narrowing
  names : loaded.names = archive.names
  mapped : ∀ region resident, loaded.region? region = some resident →
    ∃ image ∈ archive.filled, image.region = region ∧ Resident.map mapper image = .ok resident
  present : ∀ image ∈ archive.filled, ∃ resident, loaded.region? image.region = some resident

private theorem mapped_of_placed {images : List Image} {after : Loaded}
    (placed : images.foldlM (fun loaded image => do
      return loaded.place (← Resident.map mapper image)) loaded = (.ok after : Outcome Loaded)) :
    ∀ image ∈ images, ∃ resident, Resident.map mapper image = .ok resident := by
  induction images generalizing loaded with
  | nil => exact fun _ member => by cases member
  | cons image rest ih =>
    rw [List.foldlM_cons] at placed
    cases here : Resident.map mapper image with
    | error failure =>
      rw [here] at placed
      cases placed
    | ok resident =>
      rw [here] at placed
      exact List.forall_mem_cons.mpr ⟨⟨resident, here⟩, ih placed⟩

theorem holding_of_load (distinct : (archive.regions.map (·.region)).Nodup)
    (loads : load archive true mapper = .ok loaded) : loaded.Holding archive mapper := by
  have kept : (archive.filled.map (·.region)).Nodup := distinct.sublist (List.filter_sublist.map _)
  unfold load at loads
  cases read : RecordTable.ofBytes archive.table with
  | error cause =>
    rw [read] at loads
    cases loads
  | ok table =>
    rw [read] at loads
    obtain ⟨after, done, alike, all, others⟩ := exists_placed kept (mapped_of_placed loads)
      ⟨true, archive.narrowing, archive.names, table, none, none⟩
    cases loads.symm.trans done
    refine ⟨alike.enabled, alike.narrowing, alike.names, ?_, ?_⟩
    · intro region resident found
      by_cases listed : region ∈ archive.filled.map (·.region)
      · obtain ⟨image, member, rfl⟩ := List.mem_map.mp listed
        obtain ⟨other, here, same⟩ := all image member
        rw [found] at same
        cases same
        exact ⟨image, member, rfl, here⟩
      · rw [others region listed] at found
        cases region <;> cases found
    · intro image member
      obtain ⟨resident, _, here⟩ := all image member
      exact ⟨resident, here⟩

theorem exists_load {table : RecordTable} (read : RecordTable.ofBytes archive.table = .ok table)
    (distinct : (archive.regions.map (·.region)).Nodup) (granted : archive.Granted mapper) :
    ∃ loaded, load archive true mapper = .ok loaded ∧ loaded.Holding archive mapper ∧
      loaded.table = table := by
  have kept : (archive.filled.map (·.region)).Nodup := distinct.sublist (List.filter_sublist.map _)
  obtain ⟨after, done, alike, _, _⟩ := exists_placed kept
    (fun image member => by
      obtain ⟨grant, here, long, _⟩ := granted.granted image member
      exact Resident.exists_map here long)
    ⟨true, archive.narrowing, archive.names, table, none, none⟩
  have loads : load archive true mapper = .ok after := by
    simp only [load, read, bind, Except.bind, if_true]
    exact done
  exact ⟨after, loads, holding_of_load distinct loads, alike.table⟩

def fixedUp (loaded : Loaded) : Loaded :=
  { loaded with
    closed := loaded.closed.map (·.fixedUp loaded.narrowing loaded.relocations)
    opened := loaded.opened.map (·.fixedUp loaded.narrowing loaded.relocations) }

@[simp] theorem region?_fixedUp (loaded : Loaded) (region : Region) :
    loaded.fixedUp.region? region =
      (loaded.region? region).map (·.fixedUp loaded.narrowing loaded.relocations) := by
  cases region <;> rfl

def fixedRegion (loaded : Loaded) (region : Region) : Loaded :=
  match loaded.region? region with
  | none => loaded
  | some resident => loaded.place (resident.fixedUp loaded.narrowing loaded.relocations)

theorem ext_region? {left right : Loaded} (alike : left.Alike right)
    (same : ∀ region, left.region? region = right.region? region) : left = right := by
  obtain ⟨enabled, narrowing, names, table⟩ := alike
  have closed := same .closed
  have opened := same .opened
  cases left
  cases right
  cases enabled
  cases narrowing
  cases names
  cases table
  cases closed
  cases opened
  rfl

/-- Every region is in its place, and its marked words have targets. -/
structure Fixable (loaded : Loaded) : Prop where
  placed : ∀ region resident, loaded.region? region = some resident → resident.region = region
  fresh : ∀ region resident, loaded.region? region = some resident → resident.fixed = false
  sound : ∀ region resident, loaded.region? region = some resident →
    resident.Sound loaded.narrowing loaded.relocations

private theorem alike_fixedRegion (loaded : Loaded) (region : Region) :
    (loaded.fixedRegion region).Alike loaded := by
  unfold fixedRegion
  split
  · exact ⟨rfl, rfl, rfl, rfl⟩
  · exact loaded.alike_place _

private theorem exists_fixupRegion (region : Region) (ready : ∀ resident,
    loaded.region? region = some resident → resident.fixed = false ∧
      resident.Sound loaded.narrowing loaded.relocations) (count : FixupCount) :
    ∃ more, loaded.fixupRegion count region = .ok (.ok more, loaded.fixedRegion region) := by
  unfold fixupRegion fixedRegion
  cases found : loaded.region? region with
  | none => exact ⟨count, rfl⟩
  | some resident =>
    obtain ⟨fresh, sound⟩ := ready resident found
    obtain ⟨own, done⟩ := Resident.fixup_eq fresh sound
    refine ⟨count.add own, ?_⟩
    simp only [fresh, Bool.false_eq_true, if_false, done]
    rfl

namespace Fixable

variable (fixable : loaded.Fixable)
include fixable

private theorem region?_fixedRegion (region other : Region) :
    (loaded.fixedRegion region).region? other =
      if region = other then
        (loaded.region? other).map (·.fixedUp loaded.narrowing loaded.relocations)
      else loaded.region? other := by
  unfold fixedRegion
  split
  · rename_i absent
    split
    · rename_i same
      rw [← same, absent]
      rfl
    · rfl
  · rename_i resident found
    have place : (resident.fixedUp loaded.narrowing loaded.relocations).region = region :=
      fixable.placed region resident found
    rw [region?_place, place]
    split
    · rename_i same
      rw [← same, found]
      rfl
    · rfl

theorem relocations_fixedRegion (region : Region) :
    (loaded.fixedRegion region).relocations = loaded.relocations := by
  have each (other : Region) : ((loaded.fixedRegion region).region? other).map Resident.relocation =
      (loaded.region? other).map Resident.relocation := by
    rw [fixable.region?_fixedRegion]
    split
    · cases loaded.region? other <;> simp
    · rfl
  simp only [Loaded.relocations, residents, List.map_filterMap, each]

private theorem ready_fixedRegion {region other : Region} (different : region ≠ other)
    (resident : Resident) (found : (loaded.fixedRegion region).region? other = some resident) :
    resident.fixed = false ∧ resident.Sound (loaded.fixedRegion region).narrowing
      (loaded.fixedRegion region).relocations := by
  rw [fixable.region?_fixedRegion, if_neg different] at found
  rw [(loaded.alike_fixedRegion region).narrowing, fixable.relocations_fixedRegion]
  exact ⟨fixable.fresh other resident found, fixable.sound other resident found⟩

private theorem fixedRegion_fixedRegion :
    (loaded.fixedRegion .closed).fixedRegion .opened = loaded.fixedUp := by
  have first := loaded.alike_fixedRegion .closed
  have second := (loaded.fixedRegion .closed).alike_fixedRegion .opened
  have same : (loaded.fixedRegion .closed).region? .opened = loaded.region? .opened := by
    rw [fixable.region?_fixedRegion, if_neg (by decide)]
  apply ext_region?
  · have same : loaded.Alike loaded.fixedUp := ⟨rfl, rfl, rfl, rfl⟩
    exact (second.trans first).trans same
  · intro region
    rw [region?_fixedUp, fixedRegion.eq_def (loaded.fixedRegion .closed), same, first.narrowing,
      fixable.relocations_fixedRegion]
    cases found : loaded.region? .opened with
    | none =>
      simp only
      rw [fixable.region?_fixedRegion]
      cases region with
      | closed => rfl
      | opened => simp [found]
    | some resident =>
      have place : (resident.fixedUp loaded.narrowing loaded.relocations).region = .opened :=
        fixable.placed .opened resident found
      simp only
      rw [region?_place, place, fixable.region?_fixedRegion]
      cases region with
      | closed => simp
      | opened => simp [found]

/-- Regions that were never fixed up and whose marked words have targets are fixed up together. -/
theorem fixup_eq : ∃ count, loaded.fixup = .ok (.ok count, loaded.fixedUp) := by
  cases listed : loaded.residents with
  | nil =>
    have absent (region : Region) : loaded.region? region = none := by
      have all := List.filterMap_eq_nil_iff.mp listed
      exact all region (by cases region <;> decide)
    have same : loaded.fixedUp = loaded := ext_region? ⟨rfl, rfl, rfl, rfl⟩ fun region => by
      rw [region?_fixedUp, absent]
      rfl
    exact ⟨{}, by rw [fixup, listed, same]⟩
  | cons first rest =>
    have member : first ∈ loaded.residents := by
      rw [listed]
      exact List.mem_cons_self
    obtain ⟨region, _, found⟩ := List.mem_filterMap.mp member
    obtain ⟨count, closed⟩ := exists_fixupRegion .closed (fun resident here =>
      ⟨fixable.fresh _ resident here, fixable.sound _ resident here⟩) {}
    have apart : Region.closed ≠ .opened := by decide
    obtain ⟨total, opened⟩ := exists_fixupRegion .opened (fixable.ready_fixedRegion apart) count
    refine ⟨total, ?_⟩
    simp only [fixup, listed, fixable.fresh region first found, Bool.false_and, Bool.false_eq_true,
      if_false, Region.all, fixupRegions, closed, opened, fixable.fixedRegion_fixedRegion]

end Fixable
end Loaded
end FrozenHeap
