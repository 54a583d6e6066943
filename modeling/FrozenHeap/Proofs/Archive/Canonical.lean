import FrozenHeap.Proofs.Archive.Measuring

/-! What every archive that is read is fit for. However its bytes were arranged, its references all
have addresses, its marks are sets of its words, and it can be written and read again. -/

namespace FrozenHeap

namespace Reader

/-- A name is read behind its length, so it is short enough to be written behind it. -/
theorem yields_name : Reader.name.Yields (·.utf8ByteSize < UInt32.size) := by
  refine .bind (.number 4) fun length few => .bind (.bytes length) fun block size => ?_
  rintro rest name after read
  have written := eq_utf8_of_ofUtf8? (Yields.require rest name after read)
  rwa [← length_utf8, ← written, size]

end Reader

namespace Archive

private theorem yields_sectionsFit : Reader.archive.Yields (·.sectionsFit = true) := by
  unfold Reader.archive
  refine .behind fun magic => .refusing fun _ => .behind fun version => .refusing fun _ => ?_
  refine .behind fun regionCount => .behind fun narrowing => .bind (.number 4) fun count few => ?_
  refine .bind (.array Reader.yields_name count) fun names short => ?_
  refine .bind (.number 4) fun length small => .bind (.bytes length) fun table size => ?_
  refine .behind fun found => .pure ?_
  simp only [sectionsFit, Bool.and_eq_true, decide_eq_true_eq, Array.all_eq_true']
  exact ⟨⟨short.1 ▸ few, short.2⟩, by rw [List.size_toArray, size]; exact small⟩

/-- An archive that is fit for every later use, with the numbers of its marks. -/
structure Canonical (archive : Archive) (counts : List Nat) : Prop where
  /-- Each narrow reference has its address, no bit of which is lost. -/
  widens : ∀ narrow, ∃ address,
    widenFrom archive.narrowing.base archive.narrowing.shift narrow = .ok address ∧
      (narrow ≠ 0 → address.toNat =
        archive.narrowing.base.toNat + narrow.toNat * stride archive.narrowing.shift)
  /-- Each region is there at most once, the closed one first. -/
  ordered : archive.regions.Pairwise fun first second => first.region.code < second.region.code
  covered : ∀ image ∈ archive.regions, image.marks.length = image.words.size ∧
    image.marks.words.size = wordsFor image.words.size
  bounded : ∀ image ∈ archive.regions, ∀ index, image.words.size ≤ index →
    packedBit image.marks.words index = false
  counted : counts = archive.regions.map fun image =>
    (List.range image.words.size).countP (packedBit image.marks.words)
  /-- What is written of the archive is the archive again, whatever is behind it. -/
  rewritten : ∃ written, archive.toBytes = .ok written ∧
    ∀ rest, (measure (written ++ rest)).run = .ok (.ok (archive, counts))

theorem exists_toBytes {archive : Archive} (wellFormed : archive.WellFormed)
    (fit : archive.sectionsFit = true) : ∃ written, archive.toBytes = .ok written := by
  have few := wellFormed.ordered.length_le
  rw [List.length_map] at few
  have small : ¬ UInt16.size ≤ archive.regions.length := by
    unfold Region.all UInt16.size at *
    simp only [List.length_cons, List.length_nil] at few
    omega
  exact ⟨_, by rw [toBytes, if_neg small, if_pos fit]⟩

private theorem canonical_of_ofBytes {bytes : List UInt8} {archive : Archive}
    (read : ofBytes bytes = .ok archive) :
    archive.Canonical (archive.regions.map (·.marks.count)) := by
  have wellFormed := wellFormed_of_ofBytes read
  refine ⟨fun narrow => ⟨_, archive.narrowing.widenFrom_eq narrow, archive.narrowing.toNat_widen⟩,
    ?_, fun image member => ?_, fun image member index past => ?_, ?_, ?_⟩
  · have increasing : Region.all.Pairwise fun first second => first.code < second.code := by decide
    have codes := increasing.sublist wellFormed.ordered
    rwa [List.pairwise_map] at codes
  · have covered := wellFormed.covered image member
    exact ⟨covered, covered ▸ image.marks.sized⟩
  · rw [← wellFormed.covered image member] at past
    exact image.marks.bounded index past
  · refine List.map_congr_left fun image member => ?_
    rw [image.marks.count_eq, Marks.toList, ← List.countP_eq_length_filter,
      ← wellFormed.covered image member]
    rfl
  · obtain ⟨written, done⟩ := exists_toBytes wellFormed (of_ofBytes yields_sectionsFit read)
    refine ⟨written, done, fun rest => ?_⟩
    rw [measure_mirrors, wellFormed.ofBytes_toBytes done rest]
    rfl

/-- Whatever the bytes are, reading them with machine words is never stopped: they are refused or
they are an archive, which is fit for every later use. -/
theorem measure_canonical (bytes : List UInt8) : ∃ answer, (measure bytes).run = .ok answer ∧
    answer.map (·.1) = ofBytes bytes ∧
      ∀ archive counts, answer = .ok (archive, counts) → archive.Canonical counts := by
  refine ⟨_, measure_mirrors bytes, ?_, fun archive counts same => ?_⟩
  · cases ofBytes bytes <;> rfl
  · cases read : ofBytes bytes with
    | error cause =>
      rw [read] at same
      cases same
    | ok found =>
      rw [read] at same
      cases same
      exact canonical_of_ofBytes read

/-- An archive whose open region comes first, two words with a mark on the second, and two
bytes behind it. -/
def swapped : List UInt8 :=
  magic ++ LittleEndian.encode 2 version ++ LittleEndian.encode 2 2 ++
    LittleEndian.encode 8 0x10000 ++ LittleEndian.encode 4 2 ++ sectionOf [] ++ sectionOf [] ++
    imageOf ⟨.opened, 0x20000, #[header 0 1, 0], (Marks.clear 2).add 1⟩ ++
    imageOf (.empty .closed 0x10000) ++ [72, 83]

theorem measure_canonical_swapped : ∃ archive counts,
    (measure swapped).run = .ok (.ok (archive, counts)) ∧
    archive.regions.map (·.region) = [.closed, .opened] ∧ counts = [0, 1] ∧
    archive.Canonical counts := by
  have ran : (measure swapped).run.toOption.any (fun answer => answer.toOption.any fun found =>
      decide (found.1.regions.map (·.region) = [.closed, .opened] ∧ found.2 = [0, 1])) = true := by
    decide +kernel
  obtain ⟨answer, measured, ran⟩ := any_toOption_iff.mp ran
  obtain ⟨⟨archive, counts⟩, rfl, found⟩ := any_toOption_iff.mp ran
  obtain ⟨order, marked⟩ := of_decide_eq_true found
  obtain ⟨_, again, _, canonical⟩ := measure_canonical swapped
  cases measured.symm.trans again
  exact ⟨archive, counts, measured, order, marked, canonical archive counts rfl⟩

end Archive
end FrozenHeap
