import TreeImage.Bytes.LittleEndian
import TreeImage.Manifest.Validate

set_option autoImplicit false

/-! # Writing images

An image is a header, one record for each entry of the manifest, and the blob. Numbers are
little-endian.

    magic         8 bytes
    version       2 bytes
    reserved      2 bytes, zero
    entry count   4 bytes
    for each entry:
      path length   2 bytes
      path          UTF-8
      kind          1 byte: 0 directory, 1 file
      flags         1 byte: bit 0 says that a mode was recorded
      mode          4 bytes
      size          8 bytes
      offset        8 bytes
      digest        32 bytes
    blob length   8 bytes
    blob
-/

namespace TreeImage

/-- The bytes that every image starts with. -/
def magic : Bytes := [69, 77, 66, 84, 82, 69, 69, 0]

/-- The flag of an entry whose mode was recorded. -/
def modeFlag : UInt8 := 1

/-- The number of bytes of a record besides its path. -/
def recordFixedLength : Nat := 56

/-- The record of one entry. -/
def Entry.encode (e : Entry) : Bytes :=
  let path := utf8 e.path
  littleEndian 2 path.length ++ path ++
    [e.kind.tag, if e.mode.isSome then modeFlag else 0] ++
    littleEndian 4 (e.mode.getD 0).toNat ++
    littleEndian 8 e.size.toNat ++
    littleEndian 8 e.offset.toNat ++
    e.digest.bytes

theorem Entry.length_encode (e : Entry) :
    e.encode.length = recordFixedLength + (utf8 e.path).length := by
  simp [Entry.encode, recordFixedLength, e.digest.length_bytes]
  omega

/-- Everything before the records of an image with `count` entries. -/
def imageHeader (count : Nat) : Bytes :=
  magic ++ littleEndian 2 formatVersion ++ littleEndian 2 0 ++ littleEndian 4 count

namespace Manifest

/-- The image of a manifest and a blob, without any check. -/
def layout (m : Manifest) (blob : Bytes) : Bytes :=
  imageHeader m.size ++ m.entries.flatMap Entry.encode ++ littleEndian 8 blob.length ++ blob

/-- Whether the path of an entry is too long for an image. -/
def pathIsTooLong (e : Entry) : Bool := maxPathLength < (utf8 e.path).length

/-- The image of a manifest that is valid for `blob` and whose paths are short enough. -/
def encode (m : Manifest) (blob : Bytes) : Except FormatError Bytes :=
  match m.validate blob.length with
  | .error e => .error e
  | .ok () =>
    match m.entries.find? pathIsTooLong with
    | some e => .error (.pathTooLong e.path (utf8 e.path).length)
    | none => .ok (m.layout blob)

end Manifest

end TreeImage
