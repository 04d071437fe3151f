import TreeImage.Image.Encode

set_option autoImplicit false

/-! # Reading images

A `Cursor` stands at a byte of an image. Taking `n` bytes either gives exactly the next `n` and moves on,
or fails and says where it stood (`take_eq_ok_iff`). An image is read field by field, its manifest is
checked, and what is left is told apart as the blob. -/

namespace TreeImage

/-! ## Cursors -/

/-- A place in an image: the bytes from there on, and how many stand before it. -/
structure Cursor where
  rest : Bytes
  position : Nat
  deriving DecidableEq, Repr

namespace Cursor

/-- The next `n` bytes. -/
def take (c : Cursor) (n : Nat) (field : Field) : Except FormatError (Bytes × Cursor) :=
  if (c.rest.take n).length < n then .error (.truncated field c.position)
  else .ok (c.rest.take n, ⟨c.rest.drop n, c.position + n⟩)

theorem take_eq_ok_iff {c c' : Cursor} {n : Nat} {field : Field} {bs : Bytes} :
    c.take n field = .ok (bs, c') ↔
      c.rest = bs ++ c'.rest ∧ bs.length = n ∧ c'.position = c.position + n := by
  unfold take
  constructor
  · intro h
    split at h
    · cases h
    · next hn =>
      cases h
      rw [List.length_take] at hn ⊢
      exact ⟨(List.take_append_drop _ _).symm, by omega, rfl⟩
  · rintro ⟨hr, hl, hp⟩
    obtain ⟨rest, position⟩ := c'
    simp only at hr hp
    subst hl hp
    simp [hr]

/-- The next number of `width` bytes. -/
def number (c : Cursor) (width : Nat) (field : Field) : Except FormatError (Nat × Cursor) :=
  match c.take width field with
  | .error e => .error e
  | .ok (bs, c) => .ok (ofLittleEndian bs, c)

/-- The next byte. -/
def byte (c : Cursor) (field : Field) : Except FormatError (UInt8 × Cursor) :=
  match c.number 1 field with
  | .error e => .error e
  | .ok (n, c) => .ok (n.toUInt8, c)

/-- The next digest. -/
def digest (c : Cursor) : Except FormatError (Digest × Cursor) :=
  match h : c.take Digest.size .digest with
  | .error e => .error e
  | .ok (bs, c) => .ok (⟨bs, (take_eq_ok_iff.1 h).2.1⟩, c)

end Cursor

/-! ## Records -/

/-- Read the record of entry number `index`. -/
def Entry.read (c : Cursor) (index : Nat) : Except FormatError (Entry × Cursor) := do
  let (pathLength, c) ← c.number 2 .pathLength
  let (pathBytes, c) ← c.take pathLength .path
  let some path := text? pathBytes | .error (.invalidUtf8 index)
  let (tag, c) ← c.byte .kind
  let some kind := EntryKind.ofTag? tag | .error (.unknownKind index tag)
  let (flags, c) ← c.byte .flags
  if flags &&& ~~~modeFlag ≠ 0 then .error (.unknownFlags index flags)
  let (mode, c) ← c.number 4 .mode
  let (size, c) ← c.number 8 .size
  let (offset, c) ← c.number 8 .offset
  let (digest, c) ← c.digest
  let recorded := flags &&& modeFlag ≠ 0
  .ok (⟨path, kind, size.toUInt64, offset.toUInt64, digest,
    if recorded then some mode.toUInt32 else none⟩, c)

/-- Read `count` records, the first of them number `index`. -/
def Entry.readAll (index : Nat) : Nat → Cursor → Except FormatError (List Entry × Cursor)
  | 0, c => .ok ([], c)
  | count + 1, c => do
    let (e, c) ← Entry.read c index
    let (es, c) ← Entry.readAll (index + 1) count c
    .ok (e :: es, c)

/-! ## Images -/

/-- A manifest and where the blob lies in the image it was read from. -/
structure Decoded where
  manifest : Manifest
  blobStart : Nat
  blobLength : Nat
  deriving DecidableEq

/-- Read and check an image. -/
def decode (bytes : Bytes) : Except FormatError Decoded := do
  let c : Cursor := ⟨bytes, 0⟩
  let (found, c) ← c.take magic.length .magic
  if found ≠ magic then .error .badMagic
  let (version, c) ← c.number 2 .version
  if version ≠ formatVersion then .error (.unsupportedVersion version)
  let (reserved, c) ← c.number 2 .reserved
  if reserved ≠ 0 then .error (.reservedBits reserved)
  let (count, c) ← c.number 4 .entryCount
  let remaining := c.rest.length
  if remaining < count * recordFixedLength then .error (.entryCountTooLarge count remaining)
  let (entries, c) ← Entry.readAll 0 count c
  let (blobLength, c) ← c.number 8 .blobLength
  let blobStart := c.position
  let (_, c) ← c.take blobLength .blob
  if c.rest.length ≠ 0 then .error (.trailingBytes c.rest.length)
  let manifest : Manifest := ⟨entries⟩
  manifest.validate blobLength
  .ok ⟨manifest, blobStart, blobLength⟩

end TreeImage
