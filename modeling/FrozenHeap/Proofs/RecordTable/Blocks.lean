import FrozenHeap.RecordTable

namespace FrozenHeap.TableLayout

def Holds (block : List UInt8) (offset : Nat) (bytes : List UInt8) : Prop :=
  ∃ front back, block = front ++ (bytes ++ back) ∧ front.length = offset

@[simp] theorem length_half (n : Nat) : (half n).length = halfBytes :=
    LittleEndian.length_encode _ _

namespace Holds

variable {block bytes front back : List UInt8} {offset : Nat}

theorem whole (block : List UInt8) : Holds block 0 block := ⟨[], [], by simp, rfl⟩

theorem left (holds : Holds block offset (front ++ back)) : Holds block offset front := by
  obtain ⟨before, behind, rfl, start⟩ := holds
  exact ⟨before, back ++ behind, by simp, start⟩

theorem right (holds : Holds block offset (front ++ back)) :
    Holds block (offset + front.length) back := by
  obtain ⟨before, behind, rfl, start⟩ := holds
  exact ⟨before ++ front, behind, by simp, by simp [start]⟩

theorem le_length (holds : Holds block offset bytes) : offset + bytes.length ≤ block.length := by
  obtain ⟨before, behind, rfl, start⟩ := holds
  simp only [List.length_append]
  omega

theorem extract (holds : Holds block offset bytes) :
    (block.toArray.extract offset (offset + bytes.length)).toList = bytes := by
  obtain ⟨before, behind, rfl, start⟩ := holds
  subst start
  simp [List.extract_eq_take_drop]

theorem number {width n : Nat} (holds : Holds block offset (LittleEndian.encode width n))
    (fits : n < LittleEndian.count width) :
    RecordTable.number? block.toArray width offset = some n := by
  have inside := holds.le_length
  have read := holds.extract
  rw [LittleEndian.length_encode] at inside read
  rw [RecordTable.number?, List.size_toArray, if_pos inside, read,
    LittleEndian.decode_encode_of_lt fits]

theorem half {n : Nat} (holds : Holds block offset (half n)) (fits : n < UInt32.size) :
    RecordTable.number? block.toArray halfBytes offset = some n := holds.number fits

theorem name {name : String} (holds : Holds block offset (text name))
    (small : block.length < UInt32.size) : RecordTable.name? block.toArray offset = some name := by
  have counted := holds.left.left
  have written := holds.left.right
  rw [length_half] at written
  have inside := written.le_length
  have length := counted.half (by omega)
  simp only [RecordTable.name?, length, Option.bind_eq_bind, Option.bind_some, List.size_toArray,
    if_pos inside, written.extract, ofUtf8?_utf8]

theorem item {items : List α} {write : α → List UInt8} {width : Nat}
    (holds : Holds block offset (items.flatMap write))
    (sized : ∀ item, (write item).length = width) {index : Nat} {item : α}
    (present : items[index]? = some item) : Holds block (offset + width * index) (write item) := by
  induction items generalizing offset index with
  | nil => simp at present
  | cons head rest ih =>
    rw [List.flatMap_cons] at holds
    cases index with
    | zero =>
      have same : head = item := by simpa using present
      rw [← same]
      exact holds.left
    | succ index =>
      rw [List.getElem?_cons_succ] at present
      have behind := ih holds.right present
      rw [sized] at behind
      rw [Nat.mul_add, Nat.mul_one, Nat.add_comm (width * index), ← Nat.add_assoc]
      exact behind

/-- Items of any size are where the sizes of the items before them put them. -/
theorem placed {items : List α} {write : α → List UInt8} {size : α → Nat}
    (holds : Holds block offset (items.flatMap write))
    (sized : ∀ item, size item = (write item).length) {item : α} {place : Nat}
    (present : (item, place) ∈ items.zip (offsetsFrom size offset items)) :
    Holds block place (write item) := by
  induction items generalizing offset with
  | nil => cases present
  | cons head rest ih =>
    rw [List.flatMap_cons] at holds
    rw [offsetsFrom, List.zip_cons_cons] at present
    rcases List.mem_cons.mp present with first | behind
    · cases first
      exact holds.left
    · rw [sized] at behind
      exact ih holds.right behind

end Holds

@[simp] theorem length_offsetsFrom (size : α → Nat) (start : Nat) (items : List α) :
    (offsetsFrom size start items).length = items.length := by
  induction items generalizing start with
  | nil => rfl
  | cons head rest ih => rw [offsetsFrom, List.length_cons, List.length_cons, ih]

theorem length_flatMap {write : α → List UInt8} {size : α → Nat}
    (sized : ∀ item, size item = (write item).length) (items : List α) :
    (items.flatMap write).length = extent size items := by
  induction items with
  | nil => rfl
  | cons head rest ih =>
    rw [List.flatMap_cons, List.length_append, ih, ← sized]
    rfl

theorem length_flatMap_of_sized {write : α → List UInt8} {width : Nat}
    (sized : ∀ item, (write item).length = width) (items : List α) :
    (items.flatMap write).length = width * items.length := by
  induction items with
  | nil => rfl
  | cons head rest ih =>
    rw [List.flatMap_cons, List.length_append, ih, sized, List.length_cons]
    exact (Nat.add_comm _ _).trans (Nat.mul_succ _ _).symm

/-- Entering pairs under new keys, each key is found with its value. -/
theorem getD_foldl_insert {pairs : List (String × Nat)} {offsets : Std.TreeMap String Nat}
    (distinct : (pairs.map Prod.fst).Nodup) {name : String} {place : Nat}
    (present : (name, place) ∈ pairs) :
    (pairs.foldl (fun offsets (name, place) => offsets.insert name place) offsets).getD name 0 =
      place := by
  have kept (rest : List (String × Nat)) (offsets : Std.TreeMap String Nat)
      (absent : name ∉ rest.map Prod.fst) :
      (rest.foldl (fun offsets (name, place) => offsets.insert name place) offsets).getD name 0 =
        offsets.getD name 0 := by
    induction rest generalizing offsets with
    | nil => rfl
    | cons head rest ih =>
      rw [List.map_cons, List.mem_cons, not_or] at absent
      rw [List.foldl_cons, ih _ absent.2, Std.TreeMap.getD_insert]
      simp [Ne.symm absent.1]
  induction pairs generalizing offsets with
  | nil => cases present
  | cons head rest ih =>
    rw [List.map_cons, List.nodup_cons] at distinct
    rw [List.foldl_cons]
    rcases List.mem_cons.mp present with first | behind
    · rw [← first] at distinct ⊢
      rw [kept rest _ distinct.1, Std.TreeMap.getD_insert_self]
    · exact ih distinct.2 behind

theorem nodup_eraseDups [BEq α] [LawfulBEq α] (items : List α) : items.eraseDups.Nodup := by
  match items with
  | [] => exact List.nodup_nil
  | head :: rest =>
    rw [List.eraseDups_cons, List.nodup_cons]
    have shorter := List.length_filter_le (fun other => !other == head) rest
    exact ⟨by simp [List.mem_eraseDups], nodup_eraseDups _⟩
termination_by items.length

end FrozenHeap.TableLayout
