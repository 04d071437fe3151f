import TreeImage.Image.Decode

set_option autoImplicit false

/-! # What a reader of records accepts

Every step of `Entry.read` is pinned down by an equation in both directions: a field is read exactly
if the field's written form comes next. Together they give `Entry.read_eq_ok_iff`: the only freedom a
record has is the mode field of an entry without a mode (`Entry.FillsMode`), which is read and dropped.
`Entry.readAll_eq_ok_iff` says the same of a whole table. -/

namespace TreeImage

theorem except_bind_eq_ok {ε α β : Type} {x : Except ε α} {f : α → Except ε β} {b : β} :
    (x >>= f) = .ok b ↔ ∃ a, x = .ok a ∧ f a = .ok b := by
  cases x <;> simp [bind, Except.bind]

theorem except_map_eq_error {ε α β : Type} {x : Except ε α} {f : α → β} {e : ε} :
    x.map f = .error e ↔ x = .error e := by
  cases x <;> simp [Except.map]

theorem except_map_eq_ok {ε α β : Type} {x : Except ε α} {f : α → β} {b : β} :
    x.map f = .ok b ↔ ∃ a, x = .ok a ∧ f a = b := by
  cases x <;> simp [Except.map]

/-! ## Fields -/

namespace Cursor

theorem number_eq_ok_iff {c c' : Cursor} {width n : Nat} {field : Field} :
    c.number width field = .ok (n, c') ↔
      c.rest = littleEndian width n ++ c'.rest ∧ n < byteCapacity width ∧
        c'.position = c.position + width := by
  unfold number
  constructor
  · intro h
    split at h
    · cases h
    · next bs c₁ hbs =>
      cases h
      obtain ⟨hrest, hlength, hposition⟩ := take_eq_ok_iff.1 hbs
      subst hlength
      rw [littleEndian_ofLittleEndian]
      exact ⟨hrest, ofLittleEndian_lt bs, hposition⟩
  · rintro ⟨hrest, hn, hposition⟩
    have htake : c.take width field = .ok (littleEndian width n, c') :=
      take_eq_ok_iff.2 ⟨hrest, length_littleEndian _ _, hposition⟩
    rw [htake]
    simp only [ofLittleEndian_littleEndian hn]

theorem byte_eq_ok_iff {c c' : Cursor} {b : UInt8} {field : Field} :
    c.byte field = .ok (b, c') ↔ c.rest = b :: c'.rest ∧ c'.position = c.position + 1 := by
  unfold byte
  constructor
  · intro h
    split at h
    · cases h
    · next n c₁ hn =>
      cases h
      obtain ⟨hrest, -, hposition⟩ := number_eq_ok_iff.1 hn
      exact ⟨hrest, hposition⟩
  · rintro ⟨hrest, hposition⟩
    have hb : b.toNat.toUInt8 = b := by simp
    have hnumber : c.number 1 field = .ok (b.toNat, c') := by
      refine number_eq_ok_iff.2 ⟨?_, ?_, hposition⟩
      · simpa only [littleEndian, hb, List.singleton_append] using hrest
      · exact b.toNat_lt
    rw [hnumber]
    simp only [hb]

theorem digest_eq_ok_iff {c c' : Cursor} {d : Digest} :
    c.digest = .ok (d, c') ↔
      c.rest = d.bytes ++ c'.rest ∧ c'.position = c.position + Digest.size := by
  unfold digest
  constructor
  · intro h
    split at h
    · cases h
    · next bs c₁ hbs =>
      cases h
      obtain ⟨hrest, -, hposition⟩ := take_eq_ok_iff.1 hbs
      exact ⟨hrest, hposition⟩
  · rintro ⟨hrest, hposition⟩
    have htake : c.take Digest.size .digest = .ok (d.bytes, c') :=
      take_eq_ok_iff.2 ⟨hrest, d.length_bytes, hposition⟩
    split
    · next e he => rw [htake] at he; cases he
    · next bs c₁ hbs =>
      rw [htake] at hbs
      cases hbs
      rfl

/-! ### Reading what was written -/

variable {bs rest : Bytes} {position : Nat} {field : Field}

theorem take_append : Cursor.take ⟨bs ++ rest, position⟩ bs.length field =
    .ok (bs, ⟨rest, position + bs.length⟩) :=
  take_eq_ok_iff.2 ⟨rfl, rfl, rfl⟩

theorem number_append {width n : Nat} (h : n < byteCapacity width) :
    Cursor.number ⟨littleEndian width n ++ rest, position⟩ width field =
      .ok (n, ⟨rest, position + width⟩) :=
  number_eq_ok_iff.2 ⟨rfl, h, rfl⟩

theorem byte_cons {b : UInt8} :
    Cursor.byte ⟨b :: rest, position⟩ field = .ok (b, ⟨rest, position + 1⟩) :=
  byte_eq_ok_iff.2 ⟨rfl, rfl⟩

theorem digest_append {d : Digest} :
    Cursor.digest ⟨d.bytes ++ rest, position⟩ = .ok (d, ⟨rest, position + Digest.size⟩) :=
  digest_eq_ok_iff.2 ⟨rfl, rfl⟩

end Cursor

/-! ## Flags -/

/-- A flag byte without unknown bits says either that a mode was recorded or that none was. -/
theorem eq_zero_or_eq_modeFlag {flags : UInt8} (h : flags &&& ~~~modeFlag = 0) :
    flags = 0 ∨ flags = modeFlag := by
  rw [← UInt8.toBitVec_inj] at h
  rw [← UInt8.toBitVec_inj, ← UInt8.toBitVec_inj]
  simp only [modeFlag, UInt8.toBitVec_and, UInt8.toBitVec_not] at h ⊢
  revert h
  generalize flags.toBitVec = x
  revert x
  decide

/-- The flag byte of an entry. -/
def Entry.flags (e : Entry) : UInt8 := if e.mode.isSome then modeFlag else 0

theorem Entry.flags_and_not_modeFlag (e : Entry) : e.flags &&& ~~~modeFlag = 0 := by
  unfold Entry.flags
  split <;> rfl

theorem Entry.flags_and_modeFlag_ne_zero (e : Entry) :
    e.flags &&& modeFlag ≠ 0 ↔ e.mode.isSome = true := by
  unfold Entry.flags
  split
  · next h => simp only [h, iff_true]; decide
  · next h => simp only [h]; decide

/-! ## Words -/

theorem toNat_toUInt32_of_lt {n : Nat} (h : n < byteCapacity 4) : n.toUInt32.toNat = n :=
  Nat.mod_eq_of_lt h

theorem toNat_toUInt64_of_lt {n : Nat} (h : n < byteCapacity 8) : n.toUInt64.toNat = n :=
  Nat.mod_eq_of_lt h

/-! ## Records -/

namespace Entry

/-- The record of an entry with any four bytes in place of the mode. -/
def encodeWith (modeField : Bytes) (e : Entry) : Bytes :=
  littleEndian 2 (utf8 e.path).length ++ utf8 e.path ++ [e.kind.tag, e.flags] ++ modeField ++
    littleEndian 8 e.size.toNat ++ littleEndian 8 e.offset.toNat ++ e.digest.bytes

/-- The mode field that is written for an entry. -/
def modeField (e : Entry) : Bytes := littleEndian 4 (e.mode.getD 0).toNat

theorem encode_eq_encodeWith (e : Entry) : e.encode = e.encodeWith e.modeField := rfl

/-- Whether four bytes can stand in the mode field of an entry: only those of its mode, if it has one,
    and otherwise any. -/
def FillsMode (e : Entry) (field : Bytes) : Prop :=
  field.length = 4 ∧ (e.mode.isSome = true → field = e.modeField)

theorem fillsMode_modeField (e : Entry) : e.FillsMode e.modeField :=
  ⟨length_littleEndian _ _, fun _ => rfl⟩

theorem length_encodeWith (e : Entry) {field : Bytes} (h : field.length = 4) :
    (e.encodeWith field).length = recordFixedLength + (utf8 e.path).length := by
  simp [encodeWith, recordFixedLength, e.digest.length_bytes, h]
  omega

/-- The flag byte of an entry is the one that it was read with, if that has no unknown bits. -/
theorem flags_of_known {flags : UInt8} (path : String) (kind : EntryKind) (size offset : UInt64)
    (digest : Digest) (mode : UInt32) (hknown : flags &&& ~~~modeFlag = 0) :
    Entry.flags ⟨path, kind, size, offset, digest, if flags &&& modeFlag ≠ 0 then some mode else none⟩ =
      flags := by
  rcases eq_zero_or_eq_modeFlag hknown with rfl | rfl
  · rfl
  · rfl

/-- Any number of four bytes fills the mode field of an entry that was read with it. -/
theorem fillsMode_of_lt {path : String} {kind : EntryKind} {size offset : UInt64} {digest : Digest}
    {recorded : Prop} [Decidable recorded] {mode : Nat} (hmode : mode < byteCapacity 4) :
    FillsMode ⟨path, kind, size, offset, digest, if recorded then some mode.toUInt32 else none⟩
      (littleEndian 4 mode) := by
  refine ⟨length_littleEndian _ _, ?_⟩
  intro hsome
  rw [modeField]
  split at hsome
  · next hrecorded => simp [hrecorded, toNat_toUInt32_of_lt hmode]
  · cases hsome

/-- A record that was read has its written form, up to the mode field. -/
theorem eq_encodeWith_of_read {c c' : Cursor} {index : Nat} {e : Entry}
    (h : Entry.read c index = .ok (e, c')) :
    (utf8 e.path).length ≤ maxPathLength ∧
      ∃ field, e.FillsMode field ∧ c.rest = e.encodeWith field ++ c'.rest ∧
        c'.position = c.position + (recordFixedLength + (utf8 e.path).length) := by
  -- first the checks, in the order in which they are made; then what every field took
  unfold Entry.read at h
  simp only [except_bind_eq_ok, Prod.exists] at h
  obtain ⟨pathLength, c₁, hlength, pathBytes, c₂, hpath, h⟩ := h
  split at h
  case h_2 => cases h
  next path htext =>
  simp only [except_bind_eq_ok, Prod.exists] at h
  obtain ⟨tag, c₃, htag, h⟩ := h
  split at h
  case h_2 => cases h
  next kind hkind =>
  simp only [except_bind_eq_ok, Prod.exists] at h
  obtain ⟨flags, c₄, hflags, h⟩ := h
  split at h
  · simp only [except_bind_eq_ok] at h
    obtain ⟨_, h, -⟩ := h
    cases h
  next hknown =>
  simp only [except_bind_eq_ok, Prod.exists] at h
  obtain ⟨mode, c₅, hmode, size, c₆, hsize, offset, c₇, hoffset, digest, c₈, hdigest, h⟩ := h
  cases h
  obtain ⟨hr₁, hshort, hp₁⟩ := Cursor.number_eq_ok_iff.1 hlength
  obtain ⟨hr₂, hpathLength, hp₂⟩ := Cursor.take_eq_ok_iff.1 hpath
  obtain ⟨hr₃, hp₃⟩ := Cursor.byte_eq_ok_iff.1 htag
  obtain ⟨hr₄, hp₄⟩ := Cursor.byte_eq_ok_iff.1 hflags
  obtain ⟨hr₅, hmodeBound, hp₅⟩ := Cursor.number_eq_ok_iff.1 hmode
  obtain ⟨hr₆, hsizeBound, hp₆⟩ := Cursor.number_eq_ok_iff.1 hsize
  obtain ⟨hr₇, hoffsetBound, hp₇⟩ := Cursor.number_eq_ok_iff.1 hoffset
  obtain ⟨hr₈, hp₈⟩ := Cursor.digest_eq_ok_iff.1 hdigest
  have hbytes : utf8 path = pathBytes := utf8_of_text? htext
  have hkindTag : kind.tag = tag := EntryKind.tag_of_ofTag? hkind
  subst hbytes hkindTag hpathLength
  have hflagByte := flags_of_known path kind size.toUInt64 offset.toUInt64 digest mode.toUInt32
    (Decidable.not_not.1 hknown)
  refine ⟨Nat.le_of_lt_succ hshort, littleEndian 4 mode, fillsMode_of_lt hmodeBound, ?_, ?_⟩
  · simp only [encodeWith, hflagByte, toNat_toUInt64_of_lt hsizeBound,
      toNat_toUInt64_of_lt hoffsetBound]
    simp only [hr₁, hr₂, hr₃, hr₄, hr₅, hr₆, hr₇, hr₈, List.append_assoc, List.cons_append,
      List.nil_append]
  · simp only [recordFixedLength, Digest.size] at *
    omega

/-- A record in its written form is read back, whatever fills the mode field of an entry without
    mode. -/
theorem read_encodeWith (e : Entry) {field : Bytes} (hfield : e.FillsMode field)
    (hpath : (utf8 e.path).length ≤ maxPathLength) (rest : Bytes) (position index : Nat) :
    Entry.read ⟨e.encodeWith field ++ rest, position⟩ index =
      .ok (e, ⟨rest, position + (recordFixedLength + (utf8 e.path).length)⟩) := by
  have hlength : (utf8 e.path).length < byteCapacity 2 := Nat.lt_succ_of_le hpath
  have hsize : e.size.toNat < byteCapacity 8 := e.size.toNat_lt
  have hoffset : e.offset.toNat < byteCapacity 8 := e.offset.toNat_lt
  obtain ⟨mode, hmode, hbound⟩ : ∃ n, field = littleEndian 4 n ∧ n < byteCapacity 4 := by
    refine ⟨ofLittleEndian field, ?_, hfield.1 ▸ ofLittleEndian_lt field⟩
    rw [← hfield.1, littleEndian_ofLittleEndian]
  have hrecorded : (if e.flags &&& modeFlag ≠ 0 then some mode.toUInt32 else none) = e.mode := by
    cases hm : e.mode with
    | none => simp [Entry.flags, hm]
    | some m =>
      have hsome : e.mode.isSome = true := by rw [hm]; rfl
      have hfields : littleEndian 4 mode = littleEndian 4 m.toNat := by
        rw [← hmode, hfield.2 hsome, modeField, hm]
        rfl
      have hvalue : mode = m.toNat := by
        rw [← ofLittleEndian_littleEndian hbound, hfields, ofLittleEndian_littleEndian m.toNat_lt]
      rw [if_pos (e.flags_and_modeFlag_ne_zero.2 hsome), hvalue]
      simp
  subst hmode
  unfold Entry.read
  simp only [encodeWith, List.append_assoc, List.cons_append, List.nil_append, bind, Except.bind,
    Cursor.number_append hlength, Cursor.take_append, text?_utf8, Cursor.byte_cons,
    EntryKind.ofTag?_tag, e.flags_and_not_modeFlag, ne_eq, not_true_eq_false, if_false,
    Cursor.number_append hbound, Cursor.number_append hsize, Cursor.number_append hoffset,
    Cursor.digest_append]
  have hposition : position + 2 + (utf8 e.path).length + 1 + 1 + 4 + 8 + 8 + Digest.size =
      position + (recordFixedLength + (utf8 e.path).length) := by
    simp only [recordFixedLength, Digest.size]
    omega
  have hrecord : (⟨e.path, e.kind, e.size.toNat.toUInt64, e.offset.toNat.toUInt64, e.digest,
      if ¬e.flags &&& modeFlag = 0 then some mode.toUInt32 else none⟩ : Entry) = e := by
    rw [hrecorded]
    simp
  rw [hposition, hrecord]

theorem read_eq_ok_iff {c c' : Cursor} {index : Nat} {e : Entry} :
    Entry.read c index = .ok (e, c') ↔
      (utf8 e.path).length ≤ maxPathLength ∧
        ∃ field, e.FillsMode field ∧ c.rest = e.encodeWith field ++ c'.rest ∧
          c'.position = c.position + (recordFixedLength + (utf8 e.path).length) := by
  constructor
  · exact eq_encodeWith_of_read
  · rintro ⟨hpath, field, hfield, hrest, hposition⟩
    obtain ⟨rest, position⟩ := c
    obtain ⟨rest', position'⟩ := c'
    simp only at hrest hposition
    rw [hrest, hposition]
    exact read_encodeWith e hfield hpath rest' position index

end Entry

/-! ## Tables -/

/-- The tables of records that are read as `es`: one record after the other, and the mode field of an
    entry without mode is free. -/
inductive WrittenTable : List Entry → Bytes → Prop
  | nil : WrittenTable [] []
  | cons {e : Entry} {es : List Entry} {field table : Bytes}
      (short : (utf8 e.path).length ≤ maxPathLength) (fills : e.FillsMode field)
      (rest : WrittenTable es table) : WrittenTable (e :: es) (e.encodeWith field ++ table)

namespace WrittenTable

/-- The table that is written for entries is one of those that are read as them. -/
theorem flatMap_encode {es : List Entry} (h : ∀ e ∈ es, (utf8 e.path).length ≤ maxPathLength) :
    WrittenTable es (es.flatMap Entry.encode) := by
  induction es with
  | nil => exact .nil
  | cons e es ih =>
    rw [List.flatMap_cons, e.encode_eq_encodeWith]
    exact .cons (h e List.mem_cons_self) e.fillsMode_modeField
      (ih fun e' he' => h e' (List.mem_cons_of_mem _ he'))

theorem short {es : List Entry} {table : Bytes} (h : WrittenTable es table) :
    ∀ e ∈ es, (utf8 e.path).length ≤ maxPathLength := by
  induction h with
  | nil => simp
  | cons hshort _ _ ih => exact List.forall_mem_cons.2 ⟨hshort, ih⟩

/-- A table takes up the room that the entry count is held against. -/
theorem le_length {es : List Entry} {table : Bytes} (h : WrittenTable es table) :
    es.length * recordFixedLength ≤ table.length := by
  induction h with
  | nil => simp
  | cons hshort hfills _ ih =>
    rw [List.length_append, Entry.length_encodeWith _ hfills.1, List.length_cons, Nat.succ_mul]
    omega

end WrittenTable

/-- Reading a table means that a table of these entries comes next. -/
theorem Entry.readAll_eq_ok_iff {index count : Nat} {c c' : Cursor} {es : List Entry} :
    Entry.readAll index count c = .ok (es, c') ↔
      es.length = count ∧ ∃ table, WrittenTable es table ∧ c.rest = table ++ c'.rest ∧
        c'.position = c.position + table.length := by
  -- the cursor moves from record to record, so it is general in the induction
  induction count generalizing index c es with
  | zero =>
    obtain ⟨rest, position⟩ := c
    obtain ⟨rest', position'⟩ := c'
    simp only [Entry.readAll, Except.ok.injEq, Prod.mk.injEq, Cursor.mk.injEq]
    constructor
    · rintro ⟨rfl, rfl, rfl⟩
      exact ⟨rfl, [], .nil, rfl, rfl⟩
    · rintro ⟨hes, table, htable, hrest, hposition⟩
      obtain rfl := List.length_eq_zero_iff.1 hes
      cases htable
      exact ⟨rfl, by simpa using hrest, by simpa using hposition.symm⟩
  | succ count ih =>
    simp only [Entry.readAll, except_bind_eq_ok, Prod.exists]
    constructor
    · rintro ⟨e, c₁, hread, es', c₂, hreadAll, h⟩
      cases h
      obtain ⟨hshort, field, hfills, hrest, hposition⟩ := Entry.read_eq_ok_iff.1 hread
      obtain ⟨hlength, table, htable, hrest', hposition'⟩ := ih.1 hreadAll
      refine ⟨by rw [List.length_cons, hlength], e.encodeWith field ++ table,
        .cons hshort hfills htable, ?_, ?_⟩
      · rw [hrest, hrest', List.append_assoc]
      · rw [hposition', hposition, List.length_append, Entry.length_encodeWith _ hfills.1]
        omega
    · rintro ⟨hlength, table, htable, hrest, hposition⟩
      cases htable with
      | nil => cases hlength
      | @cons e es' field table' hshort hfills htable' =>
        have hlengthWith := e.length_encodeWith hfills.1
        rw [List.length_append, hlengthWith] at hposition
        refine ⟨e, ⟨table' ++ c'.rest, c.position + (recordFixedLength + (utf8 e.path).length)⟩,
          ?_, es', c', ?_, rfl⟩
        · exact Entry.read_eq_ok_iff.2 ⟨hshort, field, hfills, by rw [hrest, List.append_assoc], rfl⟩
        · exact ih.2 ⟨Nat.succ.inj hlength, table', htable', rfl,
            hposition.trans (Nat.add_assoc _ _ _).symm⟩

end TreeImage
