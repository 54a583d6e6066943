import FrozenHeap.Proofs.Loaded.Retries

namespace FrozenHeap

namespace Resident

variable {resident : Resident} {names : Array String} {address : UInt64} {object : FrozenObject}

/-- The header and the slots of an object are words of the region. -/
structure Spans (resident : Resident) (object : FrozenObject) : Prop where
  fixed : resident.fixed = true
  above : resident.live.toNat ≤ object.address.toNat
  whole : resident.distance object.address % wordBytes = 0
  within : resident.distance object.address + wordBytes * (1 + object.slots.size) ≤
    resident.byteLength

theorem contains_iff : resident.contains address = true ↔
    resident.live.toNat ≤ address.toNat ∧
      address.toNat < resident.live.toNat + resident.byteLength := by
  simp [contains, UInt64.le_iff_toNat_le]

/-- What is read of an object: its header names a class, and its slots are the words behind it. -/
theorem objectAt?_some (found : resident.objectAt? names address = some object) :
    object.address = address ∧ resident.fixed = true ∧ resident.distance address % wordBytes = 0 ∧
      resident.distance address / wordBytes + 1 + object.slots.size ≤ resident.words.size ∧
      ∀ value ∈ object.slots, ∃ index word, resident.words[index]? = some word ∧
        value = resident.valueOf index word := by
  unfold objectAt? at found
  simp only at found
  split at found
  · rename_i readable
    obtain ⟨header, _, found⟩ := Option.bind_eq_some_iff.mp found
    split at found
    · rename_i room
      obtain ⟨name, _, same⟩ := Option.bind_eq_some_iff.mp found
      cases same
      refine ⟨rfl, readable.1, readable.2, ?_, ?_⟩
      · simp only [Array.size_mapIdx, Array.size_extract]
        omega
      · intro value member
        obtain ⟨offset, inside, rfl⟩ := Array.mem_mapIdx.mp member
        rw [Array.getElem_extract]
        exact ⟨_, _, Array.getElem?_eq_getElem _, rfl⟩
    · cases found
  · cases found

private theorem spans_of_objectAt? (inside : resident.contains address = true)
    (found : resident.objectAt? names address = some object) : resident.Spans object := by
  obtain ⟨rfl, fixed, whole, within, _⟩ := objectAt?_some found
  refine ⟨fixed, (contains_iff.mp inside).1, whole, ?_⟩
  unfold byteLength wordBytes at *
  omega

private theorem exists_word (found : resident.objectAt? names address = some object)
    {target : UInt64} (refers : target ∈ object.targets) :
    ∃ index, resident.marks.isSet index = true ∧ resident.words[index]? = some target ∧
      target ≠ 0 := by
  obtain ⟨_, _, _, _, slots⟩ := objectAt?_some found
  obtain ⟨index, word, held, same⟩ := slots _ (FrozenObject.mem_targets.mp refers)
  unfold valueOf at same
  split at same
  · rename_i marked
    split at same
    · cases same
    · rename_i live
      cases same
      exact ⟨index, marked, held, live⟩
  · cases same

private theorem contains_of_relocate? {residents : List Resident} {live : UInt64}
    (moved : Relocations.relocate? (residents.map (·.relocation)) address = .ok (some live)) :
    ∃ resident ∈ residents, resident.contains live = true := by
  cases found : residents.find? (·.relocation.spans address) with
  | none =>
    rw [relocate?_of_none found] at moved
    cases moved
  | some resident =>
    obtain ⟨other, again, distance⟩ := relocate?_of_spans found
    rw [moved] at again
    cases again
    have inside := List.find?_some found
    rw [Loaded.spans_relocation, decide_eq_true_eq] at inside
    exact ⟨resident, List.mem_of_find?_eq_some found, contains_iff.mpr (by omega)⟩

end Resident

namespace Loaded

variable {archive : Archive} {mapper : Mapper} {loaded first : Loaded}

/-- Nothing is read of a loaded archive but what is there. -/
structure Guarded (loaded : Loaded) : Prop where
  marked : ∀ resident ∈ loaded.residents, ∀ index, resident.marks.isSet index = true →
    index < resident.words.size
  read : ∀ address object, loaded.objectAt? address = some object →
    ∃ resident ∈ loaded.residents, resident.Spans object
  leads : ∀ address object, loaded.objectAt? address = some object →
    ∀ target ∈ object.targets, ∃ resident ∈ loaded.residents, resident.contains target = true

/-- Where an archive that was read can be: it has no regions in memory, or some of them were fixed
up since they were mapped. -/
inductive Afoot : Loaded → Prop where
  | bare {loaded : Loaded} (bare : loaded.residents = []) : Afoot loaded
  | mapped {archive : Archive} {mapper : Mapper} {first loaded : Loaded}
      (mapped : first.Mapped archive mapper) (partly : Partly first loaded) : Afoot loaded

theorem afoot_of_load {bytes : List UInt8} {enabled : Bool}
    (read : Archive.ofBytes bytes = .ok archive)
    (loads : load archive enabled mapper = .ok loaded) : Afoot loaded := by
  cases enabled with
  | true =>
    have formed := Archive.wellFormed_of_ofBytes read
    exact .mapped (mapped_of_load formed loads) (.start loaded)
  | false =>
    refine .bare ?_
    unfold load at loads
    cases found : RecordTable.ofBytes archive.table with
    | error cause =>
      rw [found] at loads
      cases loads
    | ok table =>
      rw [found] at loads
      cases loads
      rfl

theorem Afoot.exists_fixup (afoot : Afoot loaded) :
    ∃ outcome next, loaded.fixup = .ok (outcome, next) ∧ Afoot next := by
  cases afoot with
  | bare bare => exact ⟨.ok {}, loaded, by simp only [fixup, bare], .bare bare⟩
  | mapped mapped partly =>
    obtain ⟨outcome, next, done, still, _⟩ := fixup_answers mapped partly
    exact ⟨outcome, next, done, .mapped mapped still⟩

private theorem Partly.exists_contains (partly : Partly first loaded) {address : UInt64}
    (inside : ∃ resident ∈ first.residents, resident.contains address = true) :
    ∃ resident ∈ loaded.residents, resident.contains address = true := by
  obtain ⟨resident, member, inside⟩ := inside
  obtain ⟨region, found⟩ := mem_residents_iff.mp member
  rcases partly.regions region with same | ⟨other, there, _, turned⟩
  · exact ⟨resident, mem_residents_iff.mpr ⟨region, same.trans found⟩, inside⟩
  · cases found.symm.trans there
    refine ⟨_, mem_residents_iff.mpr ⟨region, turned⟩, ?_⟩
    rw [Resident.contains_iff] at inside ⊢
    simpa [Resident.fixedUp, Resident.byteLength] using inside

/-- The marked words of a region that is fixed up are null, or addresses of words. -/
theorem Mapped.leads (mapped : first.Mapped archive mapper) (partly : Partly first loaded)
    {resident : Resident} (member : resident ∈ loaded.residents) (fixed : resident.fixed = true)
    {index : Nat} {word : UInt64} (marked : resident.marks.isSet index = true)
    (held : resident.words[index]? = some word) (live : word ≠ 0) :
    ∃ other ∈ loaded.residents, other.contains word = true := by
  obtain ⟨region, found⟩ := mem_residents_iff.mp member
  rcases partly.regions region with same | ⟨before, _, sound, turned⟩
  · obtain ⟨_, _, _, here⟩ := mapped.mapped region resident (same.symm.trans found)
    rw [(Resident.of_map here).2.1] at fixed
    cases fixed
  · cases found.symm.trans turned
    obtain ⟨narrow, present, moved⟩ := Option.map_eq_some_iff.mp
      ((Array.getElem?_mapIdx ..).symm.trans held)
    have marked : before.marks.isSet index = true := marked
    have target := Resident.target_of_sound sound marked
    rw [Resident.moved, if_pos marked] at moved
    cases move : before.move? first.narrowing first.relocations index with
    | none =>
      -- Only null has no address.
      rw [move] at target moved
      cases moved
      simp only [Resident.target, present] at target
      split at target
      · cases target
      · split at target
        · rename_i null
          exact absurd null live
        · split at target <;> cases target
    | some address =>
      rw [move] at target moved
      cases moved
      simp only [Resident.target, present] at target
      split at target
      · cases target
      · split at target
        · cases target
        · split at target
          · cases target
          · cases target
          · rename_i relocated
            cases target
            exact partly.exists_contains (Resident.contains_of_relocate? relocated)

theorem Afoot.guarded (afoot : Afoot loaded) : loaded.Guarded := by
  cases afoot with
  | bare bare =>
    have nothing (address : UInt64) : loaded.objectAt? address = none := by
      rw [objectAt?, bare]
      rfl
    refine ⟨fun resident member => ?_, fun address object found => ?_,
      fun address object found => ?_⟩
    · rw [bare] at member
      cases member
    · rw [nothing] at found
      cases found
    · rw [nothing] at found
      cases found
  | @mapped archive mapper first _ mapped partly =>
    constructor
    · intro resident member index marked
      obtain ⟨region, found⟩ := mem_residents_iff.mp member
      -- Fixing up changes neither the marks nor the number of words.
      have kept : ∃ before, first.region? region = some before ∧
          resident.marks = before.marks ∧ resident.words.size = before.words.size := by
        rcases partly.regions region with same | ⟨before, there, _, turned⟩
        · exact ⟨resident, same.symm.trans found, rfl, rfl⟩
        · cases found.symm.trans turned
          exact ⟨before, there, rfl, Array.size_mapIdx ..⟩
      obtain ⟨before, there, marks, size⟩ := kept
      obtain ⟨image, filled, _, here⟩ := mapped.mapped region before there
      have carries := (Resident.of_map here).1
      have covered := mapped.wellFormed.covered image (List.mem_of_mem_filter filled)
      rw [marks, carries.marks] at marked
      rw [size, carries.words, ← covered]
      exact Marks.lt_length_of_isSet marked
    · intro address object found
      obtain ⟨resident, spanning, found⟩ := Option.bind_eq_some_iff.mp found
      have inside : resident.contains address = true := by simpa using List.find?_some spanning
      exact ⟨resident, List.mem_of_find?_eq_some spanning, Resident.spans_of_objectAt? inside found⟩
    · intro address object found target refers
      obtain ⟨resident, spanning, found⟩ := Option.bind_eq_some_iff.mp found
      obtain ⟨index, marked, held, live⟩ := Resident.exists_word found refers
      exact mapped.leads partly (List.mem_of_find?_eq_some spanning)
        (Resident.objectAt?_some found).2.1 marked held live

end Loaded
end FrozenHeap
