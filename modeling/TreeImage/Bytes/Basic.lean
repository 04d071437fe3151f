set_option autoImplicit false

/-! # Byte strings

`Bytes` is the raw content of files, images and file system names. Text enters and leaves it as
UTF-8: `utf8` writes a string, `text?` reads one back and refuses anything that is not well-formed,
so the two are inverse to each other (`text?_utf8`, `utf8_of_text?`). -/

namespace TreeImage

/-- Raw content, one element a byte. -/
abbrev Bytes := List UInt8

/-! ## UTF-8 -/

/-- The UTF-8 form of a text. -/
def utf8 (s : String) : Bytes := s.toByteArray.data.toList

/-- The text that `bs` spells in UTF-8, if `bs` is well-formed. -/
def text? (bs : Bytes) : Option String := String.fromUTF8? bs.toByteArray

@[simp] theorem toByteArray_utf8 (s : String) : (utf8 s).toByteArray = s.toByteArray := by
  apply ByteArray.ext
  simp [utf8, List.data_toByteArray]

@[simp] theorem text?_utf8 (s : String) : text? (utf8 s) = some s := by
  rw [text?, toByteArray_utf8, String.fromUTF8?, dif_pos s.isValidUTF8]
  rfl

theorem utf8_of_text? {bs : Bytes} {s : String} (h : text? bs = some s) : utf8 s = bs := by
  rw [text?, String.fromUTF8?] at h
  split at h
  · cases h
    simp [utf8, String.fromUTF8, List.data_toByteArray]
  · exact absurd h (by simp)

theorem text?_eq_some_iff {bs : Bytes} {s : String} : text? bs = some s ↔ utf8 s = bs :=
  ⟨utf8_of_text?, fun h => h ▸ text?_utf8 s⟩

theorem utf8_injective {s t : String} (h : utf8 s = utf8 t) : s = t := by
  have := text?_utf8 s
  rw [h, text?_utf8] at this
  exact (Option.some.inj this).symm

@[simp] theorem utf8_append (s t : String) : utf8 (s ++ t) = utf8 s ++ utf8 t := by
  simp [utf8]

end TreeImage
