import FrozenHeap.Proofs.Archive.RoundTrip

namespace FrozenHeap

namespace Reader

/-- Whatever bytes it reads from, what the reader reads is good. -/
def Yields (reader : Reader α) (good : α → Prop) : Prop :=
  ∀ rest value after, reader rest = .ok (value, after) → good value

namespace Yields

theorem pure {value : α} {good : α → Prop} (holds : good value) : Yields (pure value) good := by
  intro rest read after done
  cases done
  exact holds

theorem throw {cause : Malformed} {good : α → Prop} : Yields (throw cause) good := by
  intro rest read after done
  cases done

theorem bind {reader : Reader α} {next : α → Reader β} {good : α → Prop} {fine : β → Prop}
    (first : Yields reader good) (second : ∀ value, good value → Yields (next value) fine) :
    Yields (reader >>= next) fine := by
  intro rest result after done
  have split : (reader rest >>= fun (value, rest) => next value rest) = .ok (result, after) := done
  cases read : reader rest with
  | error cause =>
    rw [read] at split
    cases split
  | ok found =>
    rw [read] at split
    exact second found.1 (first rest found.1 found.2 read) found.2 result after split

theorem anything {reader : Reader α} : Yields reader fun _ => True := fun _ _ _ _ => trivial

theorem behind {reader : Reader α} {next : α → Reader β} {fine : β → Prop}
    (second : ∀ value, Yields (next value) fine) : Yields (reader >>= next) fine :=
  anything.bind fun value _ => second value

/-- Nothing more is read under a condition that is refused. -/
theorem refusing {condition : Prop} [Decidable condition] {cause : Malformed}
    {next : Unit → Reader α} {good : α → Prop} (otherwise : ¬ condition → Yields (next ()) good) :
    Yields (if condition then MonadExcept.throw cause >>= next else next ()) good := by
  by_cases refused : condition
  · rw [if_pos refused]
    exact .bind throw fun _ (impossible : False) => impossible.elim
  · rw [if_neg refused]
    exact otherwise refused

theorem require {cause : Malformed} {answer : Option α} :
    Yields (Reader.require cause answer) (answer = some ·) := by
  cases answer with
  | none => exact throw
  | some value => exact pure rfl

theorem bytes (length : Nat) : Yields (Reader.bytes length) (·.length = length) := by
  intro rest block after done
  rw [bytes_eq] at done
  split at done
  · cases done
    rwa [List.length_take, Nat.min_eq_left]
  · cases done

theorem number (width : Nat) : Yields (Reader.number width) (· < LittleEndian.count width) :=
  .bind (bytes width) fun block size => .pure (size ▸ LittleEndian.decode_lt block)

/-- What holds of each value that is read holds of all values of an array, and none is missing. -/
theorem array {reader : Reader α} {good : α → Prop} (each : Yields reader good) (count : Nat) :
    Yields (Reader.array reader count) fun values =>
      values.size = count ∧ ∀ value ∈ values, good value := by
  have into (read : Array α) (before : ∀ value ∈ read, good value) :
      Yields (Reader.repeatInto reader count read) fun values =>
        values.size = read.size + count ∧ ∀ value ∈ values, good value := by
    induction count generalizing read with
    | zero => exact pure ⟨rfl, before⟩
    | succ count ih =>
      intro rest values after done
      unfold repeatInto at done
      split at done
      · rename_i value behind here
        obtain ⟨size, all⟩ := ih (read.push value) (fun other member => by
          rcases Array.mem_push.mp member with old | rfl
          · exact before other old
          · exact each rest other behind here) _ _ _ done
        rw [Array.size_push] at size
        exact ⟨by omega, all⟩
      · cases done
  intro rest values after done
  obtain ⟨size, all⟩ := into #[] (fun value member => absurd member (Array.not_mem_empty value))
    rest values after done
  exact ⟨size.trans (Nat.zero_add count), all⟩

end Yields

/-- The marks of an image that is read cover its words, and these are not too many. -/
theorem yields_image (before : List Image) :
    Yields (Reader.image before) fun image =>
      image.Covered ∧ image.words.size ≤ Archive.maxWords := by
  unfold Reader.image
  refine .behind fun code => .behind fun region => .refusing fun _ => ?_
  refine .behind fun base => .behind fun count => .refusing fun few => ?_
  refine .bind (.array .anything count) fun words read => .behind fun packed => ?_
  have size : words.size = count := read.1
  refine .bind .require fun marks covered => .pure ⟨?_, ?_⟩
  · have length := Marks.length_of_ofWords? covered
    exact length.trans size.symm
  · exact size ▸ Nat.le_of_not_lt few

private theorem yields_images (count : Nat) {before : List Image}
    (good : ∀ image ∈ before, image.Covered ∧ image.words.size ≤ Archive.maxWords) :
    Yields (Reader.images count before) fun found =>
      ∀ image ∈ found, image.Covered ∧ image.words.size ≤ Archive.maxWords := by
  induction count generalizing before with
  | zero => exact .pure good
  | succ count ih =>
    refine .bind (yields_image before) fun image fit => ih fun other member => ?_
    rcases List.mem_append.mp member with old | new
    · exact good other old
    · rw [List.mem_singleton.mp new]
      exact fit

end Reader

namespace Archive

private theorem sublist_filterMap (found : List Image) (regions : List Region) :
    ((regions.filterMap fun region => found.find? (·.region = region)).map (·.region)).Sublist
      regions := by
  induction regions with
  | nil => exact .slnil
  | cons region rest ih =>
    rw [List.filterMap_cons]
    split
    · exact ih.cons region
    · rename_i image here
      have same : image.region = region := by simpa using List.find?_some here
      rw [List.map_cons, same]
      exact ih.cons_cons region

private theorem yields_archive : Reader.archive.Yields WellFormed := by
  unfold Reader.archive
  refine .behind fun magic => .refusing fun _ => .behind fun version => .refusing fun _ => ?_
  refine .behind fun regionCount => .behind fun narrowing => .behind fun nameCount => ?_
  refine .behind fun names => .behind fun tableLength => .behind fun table => ?_
  refine .bind (Reader.yields_images regionCount (fun _ member => by cases member))
    fun found good => .pure ⟨sublist_filterMap found Region.all, ?_, ?_⟩
  all_goals
    intro image member
    obtain ⟨region, _, here⟩ := List.mem_filterMap.mp member
    have fit := good image (List.mem_of_find?_eq_some here)
  · exact fit.1
  · exact fit.2

/-- What holds of all that the reader reads holds of an archive that was read. -/
theorem of_ofBytes {good : Archive → Prop} (yields : Reader.archive.Yields good)
    {bytes : List UInt8}
    {archive : Archive} (read : ofBytes bytes = .ok archive) : good archive := by
  unfold ofBytes at read
  cases ran : Reader.archive.run bytes with
  | error cause =>
    rw [ran] at read
    cases read
  | ok result =>
    rw [ran] at read
    cases read
    exact yields bytes result.1 result.2 ran

theorem wellFormed_of_ofBytes {bytes : List UInt8} {archive : Archive}
    (read : ofBytes bytes = .ok archive) : archive.WellFormed := of_ofBytes yields_archive read

end Archive
end FrozenHeap
