import TreeImage.Image.Decode

set_option autoImplicit false

/-! # Images

An `Image` is a byte string that was read as an image, with its manifest. It serves the content of its
entries out of the blob. -/

namespace TreeImage

/-- The bytes from `start` up to `stop`, if they all exist. -/
def slice? (bs : Bytes) (start stop : Nat) : Option Bytes :=
  if start ≤ stop ∧ stop ≤ bs.length then some ((bs.drop start).take (stop - start)) else none

theorem length_slice? {bs piece : Bytes} {start stop : Nat}
    (h : slice? bs start stop = some piece) : piece.length = stop - start := by
  unfold slice? at h
  split at h
  · next hb =>
    cases h
    simp only [List.length_take, List.length_drop]
    omega
  · cases h

theorem slice?_append (before piece after : Bytes) :
    slice? (before ++ (piece ++ after)) before.length (before.length + piece.length) = some piece := by
  rw [slice?, if_pos, List.drop_left, Nat.add_sub_cancel_left, List.take_left]
  simp only [List.length_append]
  omega

/-- A byte string together with what it holds as an image. -/
structure Image where
  source : Bytes
  manifest : Manifest
  blobStart : Nat
  blobLength : Nat
  deriving DecidableEq

namespace Image

/-- Read an image. -/
def parse (source : Bytes) : Except FormatError Image :=
  (decode source).map fun d => ⟨source, d.manifest, d.blobStart, d.blobLength⟩

/-- The bytes of the whole image. -/
def bytes (image : Image) : Bytes := image.source

/-- The content of all files. -/
def blob (image : Image) : Bytes :=
  (slice? image.source image.blobStart (image.blobStart + image.blobLength)).getD []

/-- The content of an entry; nothing if its range does not lie inside the blob. -/
def content (image : Image) (e : Entry) : Bytes :=
  (slice? image.blob e.start e.stopWord).getD []

/-- The content of the file with this path. -/
def file? (image : Image) (path : String) : Option Bytes :=
  match image.manifest.get? path with
  | some e => if e.isFile then some (image.content e) else none
  | none => none

end Image

end TreeImage
