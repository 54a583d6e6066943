import FrozenHeap.Proofs.Archive.RoundTrip

/-! Archives that are cut short. What a reader makes of some bytes, it makes of them also when more
bytes follow, unless there were too few. So an archive says itself where it ends: bytes behind it
are left over, and without its last bytes it is not read. -/

namespace FrozenHeap

namespace Reader

theorem bind_apply (reader : Reader α) (next : α → Reader β) (bytes : List UInt8) :
    (reader >>= next) bytes = (reader bytes >>= fun (value, rest) => next value rest) := rfl

theorem repeatInto_succ (reader : Reader α) (count : Nat) (values : Array α) :
    repeatInto reader (count + 1) values =
      reader >>= fun value => repeatInto reader count (values.push value) := by
  funext bytes
  rw [bind_apply]
  cases read : reader bytes <;> simp only [repeatInto, read] <;> rfl

/-- More bytes change nothing about what is read from the front, unless there were too few. -/
structure Steady (reader : Reader α) : Prop where
  reads : ∀ {front value after} back, reader front = .ok (value, after) →
    reader (front ++ back) = .ok (value, after ++ back)
  fails : ∀ {front cause} back, reader front = .error cause →
    cause = .archiveTruncated ∨ reader (front ++ back) = .error cause

namespace Steady

theorem pure (value : α) : Steady (pure value) where
  reads back done := by
    cases done
    rfl
  fails back done := by cases done

theorem throw (cause : Malformed) : Steady (throw cause : Reader α) where
  reads back done := by cases done
  fails back done := .inr done

theorem bind {reader : Reader α} {next : α → Reader β} (first : Steady reader)
    (second : ∀ value, Steady (next value)) : Steady (reader >>= next) := by
  constructor
  · intro front result after back done
    rw [bind_apply] at done ⊢
    cases read : reader front with
    | error cause =>
      rw [read] at done
      cases done
    | ok found =>
      rw [read] at done
      rw [first.reads back read]
      exact (second found.1).reads back done
  · intro front cause back done
    rw [bind_apply] at done ⊢
    cases read : reader front with
    | error other =>
      rw [read] at done
      cases done
      rcases first.fails back read with short | same
      · exact .inl short
      · rw [same]
        exact .inr rfl
    | ok found =>
      rw [read] at done
      rw [first.reads back read]
      exact (second found.1).fails back done

theorem require (cause : Malformed) (answer : Option α) : Steady (Reader.require cause answer) := by
  cases answer with
  | none => exact throw cause
  | some value => exact pure value

/-- What is refused under a condition is refused with more bytes as well. -/
theorem refusing {condition : Prop} [Decidable condition] {cause : Malformed}
    {next : Unit → Reader α} (otherwise : Steady (next ())) :
    Steady (if condition then MonadExcept.throw cause >>= next else next ()) := by
  by_cases refused : condition
  · rw [if_pos refused]
    exact (throw cause).bind fun _ => otherwise
  · rw [if_neg refused]
    exact otherwise

theorem bytes (length : Nat) : Steady (Reader.bytes length) where
  reads {front value after} back done := by
    rw [bytes_eq] at done ⊢
    split at done
    · rename_i enough
      cases done
      rw [if_pos (by rw [List.length_append]; omega), List.take_append_of_le_length enough,
        List.drop_append_of_le_length enough]
    · cases done
  fails {front cause} back done := by
    rw [bytes_eq] at done
    split at done
    · cases done
    · cases done
      exact .inl rfl

theorem number (width : Nat) : Steady (Reader.number width) := (bytes width).bind fun _ => pure _

theorem word : Steady Reader.word := (number 8).bind fun _ => pure _

theorem array {reader : Reader α} (steady : Steady reader) (count : Nat) :
    Steady (Reader.array reader count) := by
  have into (read : Array α) : Steady (repeatInto reader count read) := by
    induction count generalizing read with
    | zero => exact pure read
    | succ count ih =>
      rw [repeatInto_succ]
      exact steady.bind fun value => ih (read.push value)
  exact into #[]

end Steady

private theorem steady_name : Steady Reader.name :=
  (Steady.number 4).bind fun _ => (Steady.bytes _).bind fun _ => .require _ _

private theorem steady_narrowing : Steady Reader.narrowing :=
  Steady.word.bind fun _ => (Steady.number 4).bind fun _ => .require _ _

private theorem steady_image (before : List Image) : Steady (Reader.image before) := by
  unfold Reader.image
  refine (Steady.number 1).bind fun code => (Steady.require _ _).bind fun region => .refusing ?_
  refine Steady.word.bind fun base => (Steady.number 8).bind fun count => .refusing ?_
  refine (Steady.array .word count).bind fun words => ?_
  refine (Steady.array .word (wordsFor count)).bind fun packed => ?_
  exact (Steady.require _ _).bind fun marks => .pure _

private theorem steady_images (count : Nat) (before : List Image) :
    Steady (Reader.images count before) := by
  induction count generalizing before with
  | zero => exact .pure before
  | succ count ih => exact (steady_image before).bind fun image => ih (before ++ [image])

private theorem steady_archive : Steady Reader.archive := by
  unfold Reader.archive
  refine (Steady.bytes 4).bind fun magic => .refusing ?_
  refine (Steady.number 2).bind fun version => .refusing ?_
  refine (Steady.number 2).bind fun regions => steady_narrowing.bind fun narrowing => ?_
  refine (Steady.number 4).bind fun count => (Steady.array steady_name count).bind fun names => ?_
  refine (Steady.number 4).bind fun length => (Steady.bytes length).bind fun table => ?_
  exact (steady_images regions []).bind fun found => .pure _

theorem Takes.truncated {reader : Reader α} {bytes front : List UInt8} {value : α}
    (takes : reader.Takes bytes value) (steady : reader.Steady) (cut : front <+: bytes)
    (proper : front ≠ bytes) : reader front = .error .archiveTruncated := by
  obtain ⟨back, rfl⟩ := cut
  have whole := takes []
  rw [List.append_nil] at whole
  cases part : reader front with
  | ok found =>
    -- What was read from the front would leave the bytes behind it over.
    rw [steady.reads back part] at whole
    have left : found.2 ++ back = [] := congrArg Prod.snd (Except.ok.inj whole)
    rw [(List.append_eq_nil_iff.mp left).2, List.append_nil] at proper
    exact absurd rfl proper
  | error cause =>
    rcases steady.fails back part with rfl | same
    · rfl
    · rw [whole] at same
      cases same

end Reader

namespace Archive

/-- An archive that is written is read back whatever bytes follow it, and is recognised as cut short
wherever it is cut. -/
theorem WellFormed.selfDelimiting {archive : Archive} {bytes : List UInt8}
    (wellFormed : archive.WellFormed) (written : archive.toBytes = .ok bytes) :
    (∀ rest, ofBytes (bytes ++ rest) = .ok archive) ∧
      ∀ front, front <+: bytes → front ≠ bytes → ofBytes front = .error .archiveTruncated := by
  refine ⟨wellFormed.ofBytes_toBytes written, fun front cut proper => ?_⟩
  have short := (wellFormed.takes_archive written).truncated Reader.steady_archive cut proper
  rw [ofBytes, StateT.run, short]
  rfl

/-- Sixty-five open words, the mark of the last in a packed word of its own. -/
def spilling : Archive where
  narrowing := ⟨0x10000, 2, by decide, by decide, by decide⟩
  names := #["Node", "é", ""]
  table := #[0, 1, 2, 3]
  regions := [⟨.closed, 0x10008, #[header 0 1, 0], (Marks.clear 2).add 1⟩,
    ⟨.opened, 0x20000, Array.replicate 65 0, (Marks.clear 65).add 64⟩]

theorem selfDelimiting_spilling : ∃ bytes, spilling.WellFormed ∧ spilling.toBytes = .ok bytes ∧
    ofBytes (bytes ++ [72, 83]) = .ok spilling ∧
    ofBytes bytes.dropLast = .error .archiveTruncated := by
  have wellFormed : spilling.WellFormed :=
    ⟨by decide, by simp [spilling, Image.Covered], by decide +kernel⟩
  obtain ⟨bytes, written, some_⟩ := any_toOption_iff.mp
    (show spilling.toBytes.toOption.any (· ≠ []) = true by decide +kernel)
  obtain ⟨reads, short⟩ := wellFormed.selfDelimiting written
  refine ⟨bytes, wellFormed, written, reads _, short _ (List.dropLast_prefix bytes) fun same => ?_⟩
  have fewer := congrArg List.length same
  have one := List.length_pos_iff.mpr (of_decide_eq_true some_)
  rw [List.length_dropLast] at fewer
  omega

end Archive
end FrozenHeap
