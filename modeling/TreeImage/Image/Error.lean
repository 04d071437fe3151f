import TreeImage.Bytes.Hex

set_option autoImplicit false

/-! # What can be wrong with an image

`FormatError` has one constructor for each way in which an image or its manifest breaks the format. -/

namespace TreeImage

/-- The longest path an image can hold, in bytes. -/
def maxPathLength : Nat := 65535

/-- The version of the format. -/
def formatVersion : Nat := 1

/-- The pieces of an image that a reader asks for one after the other. -/
inductive Field
  | magic
  | version
  | reserved
  | entryCount
  | pathLength
  | path
  | kind
  | flags
  | mode
  | size
  | offset
  | digest
  | blobLength
  | blob
  deriving DecidableEq, Repr

/-- The name of a piece in messages. -/
def Field.name : Field → String
  | magic => "magic"
  | version => "version"
  | reserved => "reserved"
  | entryCount => "entry count"
  | pathLength => "path length"
  | path => "path"
  | kind => "kind"
  | flags => "flags"
  | mode => "mode"
  | size => "size"
  | offset => "offset"
  | digest => "digest"
  | blobLength => "blob length"
  | blob => "blob"

/-- A breach of the image format. -/
inductive FormatError
  | badMagic
  | unsupportedVersion (found : Nat)
  | reservedBits (bits : Nat)
  | truncated (field : Field) (offset : Nat)
  | entryCountTooLarge (count remaining : Nat)
  | unknownKind (index : Nat) (tag : UInt8)
  | unknownFlags (index : Nat) (flags : UInt8)
  | emptyPath (index : Nat)
  | invalidUtf8 (index : Nat)
  | pathTooLong (path : String) (length : Nat)
  | duplicatePath (path : String)
  | outOfOrder (path : String)
  | directoryWithContent (path : String)
  | rangeOutOfBounds (path : String) (offset size blobLength : Nat)
  | overlappingContent (path other : String)
  | missingParent (path parent : String)
  | trailingBytes (count : Nat)
  deriving DecidableEq, Repr

/-- The wording of a breach. -/
def FormatError.message : FormatError → String
  | badMagic => "not an embedded image (bad magic)"
  | unsupportedVersion found =>
    s!"unsupported image version {found} (supported: {formatVersion})"
  | reservedBits bits => s!"reserved header bits set: {Hex.number 4 bits}"
  | truncated field offset => s!"image truncated while reading {field.name} at byte {offset}"
  | entryCountTooLarge count remaining =>
    s!"entry count {count} cannot fit in {remaining} remaining bytes"
  | unknownKind index tag => s!"entry {index}: unknown kind tag {tag.toNat}"
  | unknownFlags index flags => s!"entry {index}: unknown flag bits {Hex.number 2 flags.toNat}"
  | emptyPath index => s!"entry {index}: path is empty"
  | invalidUtf8 index => s!"entry {index}: path is not valid UTF-8"
  | pathTooLong path length =>
    s!"path '{path}' is {length} bytes, the format allows at most {maxPathLength}"
  | duplicatePath path => s!"duplicate entry path '{path}'"
  | outOfOrder path => s!"entry '{path}' is out of order"
  | directoryWithContent path => s!"directory entry '{path}' carries content"
  | rangeOutOfBounds path offset size blobLength =>
    s!"entry '{path}' content [{offset}, +{size}) lies outside the {blobLength}-byte blob"
  | overlappingContent path other => s!"content of '{path}' overlaps content of '{other}'"
  | missingParent path parent =>
    s!"entry '{path}' has no directory entry for its parent '{parent}'"
  | trailingBytes count => s!"{count} unexpected bytes after the blob"

end TreeImage
