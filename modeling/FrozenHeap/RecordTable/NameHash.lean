namespace FrozenHeap

def utf8 (name : String) : List UInt8 := name.toByteArray.data.toList

/-- The name that bytes are the UTF-8 form of. -/
def ofUtf8? (bytes : List UInt8) : Option String := String.fromUTF8? ⟨bytes.toArray⟩

theorem ofUtf8?_utf8 (name : String) : ofUtf8? (utf8 name) = some name := by
  have valid : ByteArray.IsValidUTF8 ⟨(utf8 name).toArray⟩ := by
    simpa [utf8] using name.isValidUTF8
  rw [ofUtf8?, String.fromUTF8?, dif_pos valid, Option.some.injEq, ← String.toByteArray_inj]
  simp [utf8, String.fromUTF8]

theorem eq_utf8_of_ofUtf8? {bytes : List UInt8} {name : String} (read : ofUtf8? bytes = some name) :
    bytes = utf8 name := by
  unfold ofUtf8? String.fromUTF8? at read
  split at read
  · cases read
    simp [utf8, String.fromUTF8]
  · cases read

theorem utf8_inj {left right : String} : utf8 left = utf8 right ↔ left = right := by
  constructor
  · intro same
    have read := ofUtf8?_utf8 left
    rw [same, ofUtf8?_utf8] at read
    exact (Option.some.inj read).symm
  · rintro rfl
    rfl

def hashBytes (bytes : List UInt8) : UInt32 :=
  bytes.foldl (fun hash byte => (hash ^^^ byte.toUInt32) * 0x01000193) 0x811c9dc5

def hashName (name : String) : UInt32 := hashBytes (utf8 name)

end FrozenHeap
