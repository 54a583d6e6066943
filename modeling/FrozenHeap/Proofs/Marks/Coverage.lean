import FrozenHeap.Proofs.Marks.Counting
import FrozenHeap.Proofs.Parallel
import Mathlib.Data.Finset.Range

/-! Marks as finite sets. A run of changes does to the packed words and their count what it
does to a set of indexes below a length: it is stopped in the same cases, and ends in marks
that keep the set. -/

namespace FrozenHeap

/-- What can be done to marks. -/
inductive Marking where
  /-- Start again without marks. -/
  | clear (length : Nat)
  /-- Start again with packed words. Where these are refused, nothing happens. -/
  | ofWords (words : Array UInt64) (length : Nat)
  | grow (length : Nat)
  | truncate (length : Nat)
  | set (index : Nat)

namespace Marks

def change (marks : Marks) : Marking → Run Marks
  | .clear length => .ok (clear length)
  | .ofWords words length => .ok ((ofWords? words length).getD marks)
  | .grow length => .ok (marks.grow length)
  | .truncate length => .ok (marks.truncate length)
  | .set index => marks.set index

def changes (marks : Marks) (list : List Marking) : Run Marks := list.foldlM change marks

end Marks

namespace CountedMarks

def change (marks : CountedMarks) : Marking → Run CountedMarks
  | .clear length => .ok (clear length)
  | .ofWords words length => .ok ((ofWords? words length).getD marks)
  | .grow length => .ok (marks.grow length)
  | .truncate length => .ok (marks.truncate length)
  | .set index => marks.set index

def changes (marks : CountedMarks) (list : List Marking) : Run CountedMarks :=
  list.foldlM change marks

end CountedMarks

/-- A set of indexes with a length that they are to be below. -/
structure Coverage where
  length : Nat
  members : Finset Nat

namespace Coverage

/-- The indexes of the bits that are set in some words. -/
def packed (words : Array UInt64) : Finset Nat :=
  (Finset.range (64 * words.size)).filter fun index => packedBit words index = true

private theorem mem_packed {words : Array UInt64} {index : Nat} :
    index ∈ packed words ↔ packedBit words index = true := by
  rw [packed, Finset.mem_filter, Finset.mem_range, and_iff_right_iff_imp]
  intro marked
  refine Nat.lt_of_not_le fun past => ?_
  rw [packedBit_past (by omega)] at marked
  cases marked

/-- The set that some words hold, if they are as many as the length takes and no index
reaches it. -/
def ofWords? (words : Array UInt64) (length : Nat) : Option Coverage :=
  if words.size = (length + 63) / 64 ∧ ∀ index ∈ packed words, index < length then
    some ⟨length, packed words⟩
  else none

def change (coverage : Coverage) : Marking → Run Coverage
  | .clear length => .ok ⟨length, ∅⟩
  | .ofWords words length => .ok ((ofWords? words length).getD coverage)
  | .grow length => .ok ⟨max coverage.length length, coverage.members⟩
  | .truncate length => .ok ⟨min coverage.length length, coverage.members.filter (· < length)⟩
  | .set index =>
    if index < coverage.length then .ok ⟨coverage.length, insert index coverage.members⟩
    else .error .outOfRange

def changes (coverage : Coverage) (list : List Marking) : Run Coverage :=
  list.foldlM change coverage

end Coverage

namespace Marks

/-- The set that marks stand for. -/
def coverage (marks : Marks) : Coverage := ⟨marks.length, marks.members⟩

private theorem coverage_inj {marks others : Marks} (same : marks.coverage = others.coverage) :
    marks = others :=
  ext_members (congrArg Coverage.length same) (congrArg Coverage.members same)

private theorem coverage_ofWords? (words : Array UInt64) (length : Nat) :
    Coverage.ofWords? words length = (ofWords? words length).map coverage := by
  unfold Coverage.ofWords?
  by_cases sized : words.size = wordsFor length
  · have bounded : tailClear words length = true ↔
        ∀ index ∈ Coverage.packed words, index < length := by
      rw [tailClear_iff sized]
      refine forall_congr' fun index => ?_
      rw [Coverage.mem_packed, ← Bool.not_eq_true, ← Nat.not_lt, not_imp_not]
    rw [ofWords?, dif_pos sized]
    by_cases clear : tailClear words length = true
    · rw [if_pos ⟨sized, bounded.mp clear⟩, dif_pos clear, Option.map_some, coverage]
      congr 2
      ext index
      rw [Coverage.mem_packed, mem_members, isSet]
    · rw [if_neg fun fit => clear (bounded.mpr fit.2), dif_neg clear]
      rfl
  · rw [if_neg fun fit => sized fit.1, ofWords?, dif_neg sized]
    rfl

private theorem coverage_clear (length : Nat) : (clear length).coverage = ⟨length, ∅⟩ := by
  rw [coverage, members_clear, length_clear]

private theorem counted_change (marks : Marks) (marking : Marking) :
    marks.counted.change marking = (marks.change marking).map counted := by
  cases marking with
  | clear length => exact congrArg Except.ok (counted_clear length).symm
  | ofWords words length =>
    simp only [CountedMarks.change, change, counted_ofWords?, Except.map]
    cases ofWords? words length <;> rfl
  | grow length => exact congrArg Except.ok (marks.counted_grow length).symm
  | truncate length => exact congrArg Except.ok (marks.counted_truncate length).symm
  | set index => exact marks.counted_set index

private theorem coverage_change (marks : Marks) (marking : Marking) :
    marks.coverage.change marking = (marks.change marking).map coverage := by
  cases marking with
  | clear length => exact congrArg Except.ok (coverage_clear length).symm
  | ofWords words length =>
    simp only [Coverage.change, change, coverage_ofWords?, Except.map]
    cases ofWords? words length <;> rfl
  | grow length => simp only [Coverage.change, change, Except.map, coverage, members_grow,
      length_grow]
  | truncate length =>
    simp only [Coverage.change, change, Except.map, coverage, members_truncate, length_truncate]
  | set index =>
    rw [Coverage.change, change, set]
    by_cases covered : index < marks.length
    · rw [if_pos (show index < marks.coverage.length from covered), dif_pos covered]
      exact congrArg (fun members => (Except.ok ⟨marks.length, members⟩ : Run Coverage))
        (marks.members_insert covered).symm
    · rw [if_neg (show ¬ index < marks.coverage.length from covered), dif_neg covered]
      rfl

private theorem counted_changes (marks : Marks) (list : List Marking) :
    marks.counted.changes list = (marks.changes list).map counted :=
  foldlM_map counted_change list marks

private theorem coverage_changes (marks : Marks) (list : List Marking) :
    marks.coverage.changes list = (marks.changes list).map coverage :=
  foldlM_map coverage_change list marks

end Marks

/-- Counted marks keep a set: their words hold its indexes and nothing else, and whatever is asked
of them is answered for it. -/
structure CountedMarks.Keeps (marks : CountedMarks) (coverage : Coverage) : Prop where
  length : marks.length = coverage.length
  size : marks.words.size = (coverage.length + 63) / 64
  within : ∀ index ∈ coverage.members, index < coverage.length
  bits : ∀ index, packedBit marks.words index = decide (index ∈ coverage.members)
  count : marks.count = coverage.members.card
  isSet : ∀ index, marks.isSet index = .ok (decide (index ∈ coverage.members))
  mem_indexes : ∀ index, index ∈ marks.indexes ↔ index ∈ coverage.members
  increasing : marks.indexes.Pairwise (· < ·)
  restored : CountedMarks.ofWords? marks.words marks.length = some marks

namespace Marks

theorem keeps (marks : Marks) : marks.counted.Keeps marks.coverage where
  length := rfl
  size := marks.sized
  within _ member := lt_length_of_isSet (mem_members.mp member)
  bits index := by
    rw [Bool.eq_iff_iff, decide_eq_true_eq]
    exact mem_members.symm
  count := marks.count_eq_card
  isSet index := by
    rw [isSet_counted]
    congr 1
    rw [Bool.eq_iff_iff, decide_eq_true_eq]
    exact mem_members.symm
  mem_indexes index := by
    rw [indexes_counted]
    exact mem_toList.trans mem_members.symm
  increasing := marks.counted.pairwise_indexes
  restored := by
    rw [counted_ofWords?]
    exact congrArg (Option.map counted) marks.ofWords?_words

end Marks

/-- Marking indexes one after the other adds them to the set. -/
theorem Coverage.changes_set (coverage : Coverage) (indexes : List Nat) :
    coverage.changes (indexes.map .set) =
      if ∀ index ∈ indexes, index < coverage.length then
        .ok ⟨coverage.length, indexes.toFinset ∪ coverage.members⟩
      else .error .outOfRange := by
  induction indexes generalizing coverage with
  | nil => simp [changes]; rfl
  | cons index rest ih =>
    unfold changes at *
    rw [List.map_cons, List.foldlM_cons]
    simp only [change, List.forall_mem_cons]
    by_cases covered : index < coverage.length
    · rw [if_pos covered]
      show List.foldlM _ _ _ = _
      rw [ih]
      simp [covered]
    · simp [covered]
      rfl

namespace Marks

private theorem changes_toList (marks : Marks) :
    (Marks.clear marks.length).changes (marks.toList.map .set) = .ok marks := by
  have covered := (Marks.clear marks.length).coverage_changes (marks.toList.map .set)
  rw [coverage_clear, Coverage.changes_set, if_pos fun index listed =>
    lt_length_of_isSet (mem_toList.mp listed), Finset.union_empty] at covered
  cases ran : (Marks.clear marks.length).changes (marks.toList.map .set) with
  | error breach =>
    rw [ran] at covered
    cases covered
  | ok others =>
    rw [ran] at covered
    have same : marks = others := coverage_inj (Except.ok.inj covered)
    rw [same]

end Marks

namespace CountedMarks

/-- Packed words are taken just where they are those of marks that can be set one
after the other. -/
theorem ofWords?_eq_some_iff {words : Array UInt64} {length : Nat} {marks : CountedMarks} :
    ofWords? words length = some marks ↔ marks.words = words ∧
      ∃ indexes : List Nat, (clear length).changes (indexes.map .set) = .ok marks := by
  constructor
  · intro taken
    rw [Marks.counted_ofWords?, Option.map_eq_some_iff] at taken
    obtain ⟨packed, taken, rfl⟩ := taken
    have covered := Marks.length_of_ofWords? taken
    refine ⟨Marks.words_of_ofWords? taken, packed.toList, ?_⟩
    rw [← covered, ← Marks.counted_clear, Marks.counted_changes, Marks.changes_toList]
    rfl
  · rintro ⟨rfl, indexes, ran⟩
    have covered := (Marks.clear length).coverage_changes (indexes.map .set)
    rw [← Marks.counted_clear, Marks.counted_changes] at ran
    cases set : (Marks.clear length).changes (indexes.map .set) with
    | error breach =>
      rw [set] at ran
      cases ran
    | ok packed =>
      rw [set] at ran covered
      cases ran
      rw [Marks.coverage_clear, Coverage.changes_set] at covered
      split at covered
      · have restored := packed.keeps.restored
        rwa [show packed.counted.length = length from
          (congrArg Coverage.length (Except.ok.inj covered)).symm] at restored
      · cases covered

/-- Whatever is done to marks that are counted, one change after the other, they are the same marks
as those that are not, and keep the set of indexes below a length that the changes make of the empty
set. Packed words are taken just where they are those of marks that can be set. -/
theorem keeps_of_changes (list : List Marking) :
    (clear 0).changes list = ((Marks.clear 0).changes list).map Marks.counted ∧
      Parallel Keeps ((clear 0).changes list) ((⟨0, ∅⟩ : Coverage).changes list) ∧
      ∀ words length marks, ofWords? words length = some marks ↔ marks.words = words ∧
        ∃ indexes : List Nat, (clear 0).changes (.clear length :: indexes.map .set) =
          .ok marks := by
  have counted := (Marks.clear 0).counted_changes list
  have covered := (Marks.clear 0).coverage_changes list
  rw [Marks.counted_clear] at counted
  rw [Marks.coverage_clear] at covered
  refine ⟨counted, ?_, fun words length marks => ofWords?_eq_some_iff⟩
  rw [counted, covered]
  cases (Marks.clear 0).changes list with
  | error breach => exact .broken
  | ok marks => exact .ok marks.keeps

end CountedMarks

end FrozenHeap
