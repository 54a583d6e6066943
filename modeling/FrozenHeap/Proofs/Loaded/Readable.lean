import FrozenHeap.Proofs.Loaded.Bounds

namespace FrozenHeap

namespace Resident

variable (resident : Resident) (address : UInt64)

/-- Was the region laid out around this address? -/
def LaidOut : Prop :=
  resident.base.toNat ≤ address.toNat ∧ address.toNat < resident.base.toNat + resident.byteLength

def Lies : Prop :=
  resident.live.toNat ≤ address.toNat ∧ address.toNat < resident.live.toNat + resident.byteLength

/-- At this address there is the header of an object: the region is fixed up, the header is a whole
number of words away from its start, its slots lie in the region, and it names a class. -/
def Legible (names : Array String) : Prop :=
  resident.fixed = true ∧ (address.toNat - resident.live.toNat) % wordBytes = 0 ∧
    ∃ header, resident.words[(address.toNat - resident.live.toNat) / wordBytes]? = some header ∧
      (address.toNat - resident.live.toNat) / wordBytes + 1 + headerSlots header ≤
        resident.words.size ∧
      headerClass header < names.size

end Resident

namespace Loaded

/-- The first region in memory of which something holds, as regions may overlap. -/
def First (loaded : Loaded) (holds : Resident → Prop) (resident : Resident) : Prop :=
  ∃ front back, loaded.residents = front ++ resident :: back ∧ holds resident ∧
    ∀ other ∈ front, ¬ holds other

/-- A narrow reference leads into a region, to this address of the process: the region was laid out
around what the reference stands for, and this is as far from where the region lies now. -/
def LeadsInto (loaded : Loaded) (narrow : Narrow) (region : Region) (address : UInt64) : Prop :=
  ∃ resident, loaded.First (·.LaidOut (loaded.narrowing.widen narrow)) resident ∧
    resident.region = region ∧ address.toNat = resident.live.toNat +
      ((loaded.narrowing.widen narrow).toNat - resident.base.toNat)

/-- At an address of the process there is an object that can be read. -/
def Readable (loaded : Loaded) (address : UInt64) : Prop :=
  ∃ resident, loaded.First (·.Lies address) resident ∧ resident.Legible address loaded.names

/-- An entry has this value. -/
inductive Reads (loaded : Loaded) (entry : Entry) : Value → Prop where
  | bits (kind : entry.kind = .primitive) : Reads loaded entry (.bits entry.value)
  | null {region : Region} (kind : entry.kind = .reference region) (null : entry.value = 0) :
      Reads loaded entry .null
  | object {region : Region} {narrow : Narrow} {address : UInt64}
      (kind : entry.kind = .reference region) (held : entry.value = narrow.toUInt64)
      (live : narrow ≠ 0) (leads : loaded.LeadsInto narrow region address)
      (readable : loaded.Readable address) : Reads loaded entry (.object address)

/-- An entry without a value: a reference that is wider than 32 bits, that leads into no region of
its own kind, or that leads to no object. -/
inductive Spoilt (loaded : Loaded) (entry : Entry) : Prop where
  | wide {region : Region} (kind : entry.kind = .reference region)
      (wide : UInt32.size ≤ entry.value.toNat)
  | homeless {region : Region} {narrow : Narrow} (kind : entry.kind = .reference region)
      (held : entry.value = narrow.toUInt64) (live : narrow ≠ 0)
      (homeless : ∀ address, ¬ loaded.LeadsInto narrow region address)
  | unreadable {region : Region} {narrow : Narrow} {address : UInt64}
      (kind : entry.kind = .reference region) (held : entry.value = narrow.toUInt64)
      (live : narrow ≠ 0) (leads : loaded.LeadsInto narrow region address)
      (unreadable : ¬ loaded.Readable address)

variable {loaded : Loaded}

private theorem first_iff {check : Resident → Bool} {resident : Resident} :
    loaded.First (check · = true) resident ↔ loaded.residents.find? check = some resident := by
  rw [List.find?_eq_some_iff_append, First]
  constructor
  · rintro ⟨front, back, split, here, others⟩
    exact ⟨here, front, back, split, fun other member => by simpa using others other member⟩
  · rintro ⟨here, front, back, split, others⟩
    exact ⟨front, back, split, here, fun other member => by simpa using others other member⟩

private theorem first_laidOut_iff {address : UInt64} {resident : Resident} :
    loaded.First (·.LaidOut address) resident ↔
      loaded.residents.find? (·.relocation.spans address) = some resident := by
  rw [← first_iff]
  simp only [spans_relocation, decide_eq_true_eq, Resident.LaidOut]

private theorem first_lies_iff {address : UInt64} {resident : Resident} :
    loaded.First (·.Lies address) resident ↔
      loaded.residents.find? (·.contains address) = some resident := by
  rw [← first_iff]
  simp only [Resident.contains_iff, Resident.Lies]

private theorem isSome_objectAt?_iff {resident : Resident} {names : Array String}
    {address : UInt64} :
    (resident.objectAt? names address).isSome = true ↔ resident.Legible address names := by
  rw [Resident.objectAt?, Resident.Legible, Resident.distance]
  simp only [Option.bind_eq_bind]
  split
  · rename_i placed
    rw [and_iff_right placed.1, and_iff_right placed.2]
    cases held : resident.words[(address.toNat - resident.live.toNat) / wordBytes]? with
    | none => simp
    | some header =>
      simp only [Option.bind_some, Option.some.injEq, exists_eq_left']
      split
      · rename_i room
        rw [and_iff_right room]
        by_cases known : headerClass header < names.size
        · simp [known]
        · simp [known]
      · rename_i short
        exact iff_of_false Bool.false_ne_true fun legible => short legible.1
  · rename_i misplaced
    exact iff_of_false Bool.false_ne_true fun legible => misplaced ⟨legible.1, legible.2.1⟩

private theorem readable_iff {address : UInt64} :
    loaded.Readable address ↔ (loaded.objectAt? address).isSome = true := by
  unfold Readable objectAt?
  simp only [first_lies_iff, ← isSome_objectAt?_iff, Option.bind_eq_bind]
  cases loaded.residents.find? (·.contains address) <;> simp

/-- A narrow reference leads to one address at most, into one region. -/
theorem LeadsInto.unique {narrow : Narrow} {region : Region} {address other : UInt64}
    (leads : loaded.LeadsInto narrow region address) (also : loaded.LeadsInto narrow region other) :
    address = other := by
  obtain ⟨resident, first, _, here⟩ := leads
  obtain ⟨another, again, _, there⟩ := also
  rw [first_laidOut_iff] at first again
  cases first.symm.trans again
  exact UInt64.toNat.inj (here.trans there.symm)

private theorem toUInt64_ne_zero {narrow : Narrow} (live : narrow ≠ 0) : narrow.toUInt64 ≠ 0 :=
  fun null => live (UInt32.toUInt64_inj.mp null)

theorem Reads.not_spoilt {entry : Entry} {value : Value} (reads : loaded.Reads entry value) :
    ¬ loaded.Spoilt entry := by
  intro spoilt
  cases reads with
  | bits kind =>
    cases spoilt with
    | wide other => cases kind.symm.trans other
    | homeless other => cases kind.symm.trans other
    | unreadable other => cases kind.symm.trans other
  | null kind null =>
    cases spoilt with
    | wide _ wide => exact absurd wide (by rw [null]; decide)
    | homeless _ held live => exact toUInt64_ne_zero live (held.symm.trans null)
    | unreadable _ held live => exact toUInt64_ne_zero live (held.symm.trans null)
  | @object region narrow _ kind held live leads readable =>
    cases spoilt with
    | wide _ wide =>
      rw [held, UInt32.toNat_toUInt64] at wide
      exact absurd narrow.toNat_lt (Nat.not_lt.mpr wide)
    | homeless other again _ homeless =>
      cases kind.symm.trans other
      cases UInt32.toUInt64_inj.mp (held.symm.trans again)
      exact homeless _ leads
    | unreadable other again _ also unreadable =>
      cases kind.symm.trans other
      cases UInt32.toUInt64_inj.mp (held.symm.trans again)
      cases leads.unique also
      exact unreadable readable

/-- The region that an address was laid out in is the first that was laid out around it. -/
theorem regionOf?_eq (loaded : Loaded) (address : UInt64) : loaded.relocations.regionOf? address =
    (loaded.residents.find? (·.relocation.spans address)).map (·.region) := by
  rw [Relocations.regionOf?, Relocations.spanning?, relocations, List.find?_map, Option.map_map]
  rfl

private theorem valueOf?_reference {entry : Entry} {region : Region} {narrow : Narrow}
    (kind : entry.kind = .reference region) (held : entry.value = narrow.toUInt64)
    (live : narrow ≠ 0) :
    (∃ value, loaded.valueOf? entry = .ok (some value) ∧ loaded.Reads entry value) ∨
      loaded.valueOf? entry = .ok none ∧ loaded.Spoilt entry := by
  have known : entry.narrow? = some narrow := by
    rw [Entry.narrow?, kind, held, UInt32.toNat_toUInt64, UInt32.toUInt32_toUInt64]
    exact if_pos narrow.toNat_lt
  simp only [valueOf?, kind, known, if_neg live, regionOf?_eq]
  cases found : loaded.residents.find? (·.relocation.spans (loaded.narrowing.widen narrow)) with
  | none =>
    refine .inr ⟨if_neg (Option.some_ne_none region).symm,
      .homeless kind held live fun address leads => ?_⟩
    obtain ⟨resident, first, _⟩ := leads
    cases found.symm.trans (first_laidOut_iff.mp first)
  | some resident =>
    by_cases same : resident.region = region
    · obtain ⟨address, moved, distance⟩ := Resident.relocate?_of_spans found
      have leads : loaded.LeadsInto narrow region address :=
        ⟨resident, first_laidOut_iff.mpr found, same, distance⟩
      rw [Option.map_some, if_pos (congrArg some same), relocations, moved]
      cases read : loaded.objectAt? address with
      | none =>
        refine .inr ⟨by simp [bind, Except.bind, pure, Except.pure, read], ?_⟩
        refine .unreadable kind held live leads fun readable => ?_
        rw [readable_iff, read] at readable
        cases readable
      | some object =>
        obtain ⟨_, _, there⟩ := Option.bind_eq_some_iff.mp read
        have here := (Resident.objectAt?_some there).1
        refine .inl ⟨.object address, ?_, ?_⟩
        · simp [bind, Except.bind, pure, Except.pure, read, here]
        · exact .object kind held live leads (readable_iff.mpr (Option.isSome_of_eq_some read))
    · have other : some resident.region ≠ some region := fun equal => same (Option.some.inj equal)
      refine .inr ⟨if_neg other, .homeless kind held live fun address leads => ?_⟩
      obtain ⟨another, first, placed, _⟩ := leads
      cases found.symm.trans (first_laidOut_iff.mp first)
      exact same placed

private theorem valueOf?_cases (loaded : Loaded) (entry : Entry) :
    (∃ value, loaded.valueOf? entry = .ok (some value) ∧ loaded.Reads entry value) ∨
      loaded.valueOf? entry = .ok none ∧ loaded.Spoilt entry := by
  cases kind : entry.kind with
  | primitive => exact .inl ⟨_, by rw [valueOf?, kind], .bits kind⟩
  | reference region =>
    by_cases wide : UInt32.size ≤ entry.value.toNat
    · have absent : entry.narrow? = none := by
        rw [Entry.narrow?, kind]
        exact if_neg (Nat.not_lt.mpr wide)
      exact .inr ⟨by simp only [valueOf?, kind, absent], .wide kind wide⟩
    · have held : entry.value = entry.value.toUInt32.toUInt64 := by
        apply UInt64.toNat.inj
        rw [UInt32.toNat_toUInt64, UInt64.toNat_toUInt32, Nat.mod_eq_of_lt (Nat.not_le.mp wide)]
      by_cases null : entry.value.toUInt32 = 0
      · have zero : entry.value = 0 := by rw [held, null]; rfl
        refine .inl ⟨.null, ?_, .null kind zero⟩
        simp only [valueOf?, kind, Entry.narrow?, zero]
        rfl
      · exact valueOf?_reference kind held null

theorem valuesOf?_cases (loaded : Loaded) (entries : List Entry) :
    (∃ values, loaded.valuesOf? entries =
        .ok (some (List.zipWith (fun entry value => (entry.offset, value)) entries values)) ∧
      List.Forall₂ loaded.Reads entries values) ∨
    loaded.valuesOf? entries = .ok none ∧ ∃ entry ∈ entries, loaded.Spoilt entry := by
  induction entries with
  | nil => exact .inl ⟨[], rfl, .nil⟩
  | cons entry rest ih =>
    rcases loaded.valueOf?_cases entry with ⟨value, read, reads⟩ | ⟨read, spoilt⟩
    · rcases ih with ⟨values, others, all⟩ | ⟨others, spoilt⟩
      · refine .inl ⟨value :: values, ?_, .cons reads all⟩
        simp [valuesOf?, read, others, bind, Except.bind, pure, Except.pure]
      · obtain ⟨other, member, spoilt⟩ := spoilt
        refine .inr ⟨?_, other, List.mem_cons_of_mem _ member, spoilt⟩
        simp [valuesOf?, read, others, bind, Except.bind, pure, Except.pure]
    · refine .inr ⟨?_, entry, List.mem_cons_self, spoilt⟩
      simp [valuesOf?, read, bind, Except.bind, pure, Except.pure]

end Loaded
end FrozenHeap
