import TreeImage.Text.Lossy

set_option autoImplicit false

/-! # Small bytes in texts

In UTF-8 a byte below 128 is a character of its own, and no part of any other. So the text that is made out
of arbitrary bytes holds only those of them that the bytes held (`mem_of_mem_lossy`). -/

namespace TreeImage

theorem utf8_eq_flatMap (s : String) : utf8 s = s.toList.flatMap String.utf8EncodeChar := by
  conv => lhs; rw [← String.ofList_toList (s := s)]
  induction s.toList with
  | nil => rfl
  | cons c cs ih =>
    rw [List.flatMap_cons, ← ih]
    simp [utf8, List.utf8Encode]

theorem mem_utf8EncodeChar_iff {b : UInt8} (hb : b.toNat < 128) {c : Char} :
    b ∈ String.utf8EncodeChar c ↔ c.toNat = b.toNat := by
  -- bytes of longer characters are 128 and more
  have hlarge : ∀ x : Nat, 128 ≤ x % 256 → b ≠ UInt8.ofNat x := by
    rintro x hx rfl
    rw [UInt8.toNat_ofNat'] at hb
    omega
  have hnat : c.toNat = c.val.toNat := rfl
  rw [String.utf8EncodeChar, hnat]
  split
  · next hsmall =>
    rw [List.mem_singleton, ← UInt8.toNat_inj, UInt8.toNat_ofNat', Nat.mod_eq_of_lt (by omega)]
    exact eq_comm
  · have hne : c.val.toNat ≠ b.toNat := by omega
    split
    · refine iff_of_false ?_ hne
      simp only [List.mem_cons, List.not_mem_nil, or_false, not_or]
      exact ⟨hlarge _ (by omega), hlarge _ (by omega)⟩
    · split
      · refine iff_of_false ?_ hne
        simp only [List.mem_cons, List.not_mem_nil, or_false, not_or]
        exact ⟨hlarge _ (by omega), hlarge _ (by omega), hlarge _ (by omega)⟩
      · refine iff_of_false ?_ hne
        simp only [List.mem_cons, List.not_mem_nil, or_false, not_or]
        exact ⟨hlarge _ (by omega), hlarge _ (by omega), hlarge _ (by omega), hlarge _ (by omega)⟩

theorem toNat_ofNat_toNat {b : UInt8} (hb : b.toNat < 128) : (Char.ofNat b.toNat).toNat = b.toNat := by
  have hvalid : b.toNat.isValidChar := Or.inl (by omega)
  rw [Char.ofNat, dif_pos hvalid]
  rfl

/-- A small byte is in the UTF-8 form of a text if its character is in the text. -/
theorem mem_utf8_iff {b : UInt8} (hb : b.toNat < 128) {s : String} :
    b ∈ utf8 s ↔ Char.ofNat b.toNat ∈ s.toList := by
  rw [utf8_eq_flatMap, List.mem_flatMap]
  constructor
  · rintro ⟨c, hc, hmem⟩
    have hcode := (mem_utf8EncodeChar_iff hb).1 hmem
    rwa [← hcode, Char.ofNat_toNat]
  · intro hmem
    exact ⟨_, hmem, (mem_utf8EncodeChar_iff hb).2 (toNat_ofNat_toNat hb)⟩

/-! ## Text out of arbitrary bytes -/

variable {b : UInt8}

theorem mem_of_first_eq_character (hb : b.toNat < 128) {b' : UInt8} {bs : Bytes}
    (h : Chunk.first b' bs = .character (Char.ofNat b.toNat)) : b ∈ b' :: bs := by
  unfold Chunk.first at h
  split at h
  next length complete hscan =>
    simp only at h
    split at h
    · next _ _ s hs =>
      split at h
      · next c hc =>
        cases h
        -- the character is all of a piece of the bytes
        have hmem : b ∈ utf8 s := (mem_utf8_iff hb).2 (by rw [hc]; exact List.mem_singleton_self _)
        rw [utf8_of_text? hs] at hmem
        exact List.mem_of_mem_take hmem
      · cases h
    · cases h

theorem mem_of_character_mem_chunks (hb : b.toNat < 128) {fuel : Nat} {bs : Bytes}
    (h : .character (Char.ofNat b.toNat) ∈ chunksUpTo fuel bs) : b ∈ bs := by
  induction fuel generalizing bs with
  | zero => exact absurd h List.not_mem_nil
  | succ fuel ih =>
    cases bs with
    | nil => exact absurd h List.not_mem_nil
    | cons b' bs =>
      rw [chunksUpTo, List.mem_cons] at h
      rcases h with hfirst | hrest
      · exact mem_of_first_eq_character hb hfirst.symm
      · exact List.mem_of_mem_drop (ih hrest)

theorem mem_of_mem_lossy (hb : b.toNat < 128) {bs : Bytes} (h : b ∈ utf8 (lossy bs)) : b ∈ bs := by
  unfold lossy at h
  split at h
  · next s hs => rwa [utf8_of_text? hs] at h
  · rw [mem_utf8_iff hb, String.toList_ofList, List.mem_map] at h
    obtain ⟨chunk, hchunk, heq⟩ := h
    cases chunk with
    | character c =>
      obtain rfl : c = Char.ofNat b.toNat := heq
      exact mem_of_character_mem_chunks hb hchunk
    | broken piece =>
      -- the replacement character is not a small one
      have hcode := toNat_ofNat_toNat hb
      rw [← show '\uFFFD' = Char.ofNat b.toNat from heq] at hcode
      have hlarge : ('\uFFFD').toNat = 0xFFFD := rfl
      omega

end TreeImage
