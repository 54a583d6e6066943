import FrozenHeap.Proofs.RecordTable.Accepted

namespace FrozenHeap

open TableLayout

/-- Whatever the first reading finds, the second finds too. -/
def Repeats {ε : Type} (first second : Except ε α) : Prop :=
  ∀ value, first = .ok value → second = .ok value

namespace Repeats

variable {ε : Type}

theorem refl (first : Except ε α) : Repeats first first := fun _ => id

theorem bind {first second : Except ε α} {next after : α → Except ε β}
    (head : Repeats first second) (tail : ∀ value, Repeats (next value) (after value)) :
    Repeats (first >>= next) (second >>= after) := by
  intro result done
  obtain ⟨value, found, done⟩ := bind_eq_ok_iff.mp done
  exact bind_eq_ok_iff.mpr ⟨value, head value found, tail value result done⟩

/-- The second reading goes on wherever the first does. -/
theorem refusing {stop halt : Prop} [Decidable stop] [Decidable halt] {cause : ε}
    {next after : Unit → Except ε α} (fewer : halt → stop) (tail : Repeats (next ()) (after ())) :
    Repeats (if stop then MonadExcept.throw cause >>= next else next ())
      (if halt then MonadExcept.throw cause >>= after else after ()) := by
  intro value done
  obtain ⟨fine, done⟩ := of_unless done
  rw [if_neg (mt fewer fine)]
  exact tail value done

theorem require {part : TablePart} {first second : Option α}
    (again : ∀ value, first = some value → second = some value) :
    Repeats (RecordTable.require part first) (RecordTable.require part second) := fun value found =>
  RecordTable.require_eq_ok_iff.mpr (again value (RecordTable.require_eq_ok_iff.mp found))

theorem error {cause : ε} {answer : Except ε α} : Repeats (.error cause) answer := nofun

theorem mapM {ι : Type} {read reread : ι → Except ε α}
    (each : ∀ item, Repeats (read item) (reread item)) (items : List ι) :
    Repeats (items.mapM read) (items.mapM reread) := by
  induction items with
  | nil => exact refl _
  | cons item others ih =>
    rw [List.mapM_cons, List.mapM_cons]
    exact (each item).bind fun value => ih.bind fun values => refl _

end Repeats

namespace RecordTable

variable {block : Array UInt8} {n : Nat} (rest : Array UInt8)

theorem longer (size : Nat) (short : (block ++ rest).size < size) : block.size < size := by
  rw [Array.size_append] at short
  exact Nat.lt_of_le_of_lt (Nat.le_add_right _ _) short

private theorem extract_append {first last : Nat} (inside : last ≤ block.size) :
    (block ++ rest).extract first last = block.extract first last := by
  rw [Array.extract_append, Nat.sub_eq_zero_of_le inside]
  simp

theorem number?_append {width offset : Nat} (n : Nat)
    (found : number? block width offset = some n) :
    number? (block ++ rest) width offset = some n := by
  unfold number? at found ⊢
  split at found
  · rename_i inside
    rw [extract_append rest inside, Array.size_append, if_pos (Nat.le_add_right_of_le inside)]
    exact found
  · cases found

private theorem name?_append {offset : Nat} (name : String)
    (found : name? block offset = some name) :
    name? (block ++ rest) offset = some name := by
  obtain ⟨length, counted, found⟩ := Option.bind_eq_some_iff.mp found
  refine Option.bind_eq_some_iff.mpr ⟨length, number?_append rest length counted, ?_⟩
  simp only at found ⊢
  split at found
  · rename_i inside
    rw [extract_append rest inside, Array.size_append, if_pos (Nat.le_add_right_of_le inside)]
    exact found
  · cases found

private theorem readEntry_append (offset : Nat) :
    Repeats (readEntry block offset) (readEntry (block ++ rest) offset) :=
  .bind (.require (number?_append rest)) fun _ => .bind (.refl _) fun _ =>
    .bind (.require (number?_append rest)) fun _ => .bind (.require (number?_append rest)) fun _ =>
      .refl _

private theorem readClass_append (offset : Nat) :
    Repeats (readClass block offset) (readClass (block ++ rest) offset) :=
  .bind (.require (number?_append rest)) fun _ => .require (name?_append rest)

private theorem readRecord_append (hash place : Nat) :
    Repeats (readRecord block hash place) (readRecord (block ++ rest) hash place) := by
  have named (name : String) (found : (number? block halfBytes place >>= name? block) = some name) :
      (number? (block ++ rest) halfBytes place >>= name? (block ++ rest)) = some name := by
    obtain ⟨offset, placed, found⟩ := Option.bind_eq_some_iff.mp found
    exact Option.bind_eq_some_iff.mpr
      ⟨offset, number?_append rest offset placed, name?_append rest name found⟩
  refine .bind (.require named) fun name => .refusing id ?_
  refine .bind (.require (number?_append rest)) fun entries =>
    .bind (.require (number?_append rest)) fun classes => .refusing (longer rest _) ?_
  exact .bind (.require (number?_append rest)) fun flags =>
    .bind (.mapM (fun _ => readEntry_append rest _) _) fun _ =>
      .bind (.mapM (fun _ => readClass_append rest _) _) fun _ => .refl _

private theorem readRow_append (starts : Array Nat) (index : Nat) :
    Repeats (readRow block starts index) (readRow (block ++ rest) starts index) := by
  refine .bind (.require (number?_append rest)) fun hash =>
    .bind (.require (number?_append rest)) fun place => ?_
  by_cases bucket : inBucket starts hash index = true
  · rw [if_pos bucket, if_pos bucket]
    exact .bind (readRecord_append rest hash place) fun _ => .refl _
  · rw [if_neg bucket, if_neg bucket]
    exact .refl _

private theorem readStarts_append (rowCount count offset previous : Nat) (read : Array Nat) :
    Repeats (readStarts block rowCount count offset previous read)
      (readStarts (block ++ rest) rowCount count offset previous read) := by
  induction count generalizing offset previous read with
  | zero => exact .refl _
  | succ count ih =>
    intro starts done
    unfold readStarts at done ⊢
    split at done
    · cases done
    · rename_i start found
      rw [number?_append rest start found]
      by_cases wrong : start < previous ∨ rowCount < start
      · rw [if_pos wrong] at done
        cases done
      · simp only [if_neg wrong] at done ⊢
        exact ih _ _ _ starts done

private theorem readBody_append (buckets rowCount : Nat) :
    Repeats (readBody block buckets rowCount) (readBody (block ++ rest) buckets rowCount) := by
  unfold readBody
  refine .refusing (longer rest _) ?_
  exact .bind (readStarts_append rest _ _ _ _ _) fun starts =>
    .bind (.mapM (readRow_append rest starts) _) fun _ => .refl _

/-- A table is read again of all bytes that begin with its own. -/
theorem ofBytes_append : Repeats (ofBytes block) (ofBytes (block ++ rest)) := by
  have headed (wrong : (block ++ rest).size < headerBytes ∨
      ((block ++ rest).extract 0 4).toList ≠ magic) :
      block.size < headerBytes ∨ (block.extract 0 4).toList ≠ magic := by
    rcases wrong with short | other
    · exact .inl (longer rest _ short)
    · refine or_iff_not_imp_left.mpr fun long => ?_
      rwa [extract_append rest (Nat.le_trans (by decide) (Nat.not_lt.mp long))] at other
  unfold ofBytes
  refine .refusing headed ?_
  cases versioned : number? block 2 4 with
  | none => exact .error
  | some version =>
  rw [number?_append rest version versioned]
  refine .refusing id ?_
  cases bucketCount : number? block halfBytes 8 with
  | none => exact .error
  | some buckets =>
  rw [number?_append rest buckets bucketCount]
  cases counted : number? block halfBytes 12 with
  | none => exact .error
  | some rowCount =>
  rw [number?_append rest rowCount counted]
  refine .refusing id ?_
  cases body : readBody block buckets rowCount with
  | error part => exact .error
  | ok table =>
  rw [readBody_append rest buckets rowCount table body]
  exact .refl _

end RecordTable
end FrozenHeap
