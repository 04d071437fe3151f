import TreeImage.Digest.Basic
import TreeImage.Text.Segments

set_option autoImplicit false

/-! # Manifest entries

An `Entry` describes one directory or file of an embedded tree: its path inside the tree, where its
content lies in the blob, the digest of that content, and its permission bits if they were recorded. -/

namespace TreeImage

/-! ## Paths inside a tree -/

/-- The names a path is made of, cut at slashes. -/
def pathSegments (path : String) : List (List Char) := segments '/' path.toList

/-- What stands before the last slash of `path`, if it has one. -/
def parentPath? (path : String) : Option String :=
  match path.toList.reverse.dropWhile (· ≠ '/') with
  | [] => none
  | _ :: before => some (String.ofList before.reverse)

/-- What stands after the last slash of `path`, or all of it. -/
def lastSegment (path : String) : String :=
  String.ofList (path.toList.reverse.takeWhile (· ≠ '/')).reverse

/-- The last slash splits a path into its parent and its last segment. -/
theorem parentPath?_eq_some {path parent : String} (h : parentPath? path = some parent) :
    path.toList = parent.toList ++ '/' :: (lastSegment path).toList := by
  unfold parentPath? at h
  split at h
  · cases h
  · next c before hd =>
    cases h
    have hc : c = '/' := by
      have := List.head?_dropWhile_not (fun c => decide (c ≠ '/')) path.toList.reverse
      rw [hd] at this
      simpa using this
    have := List.takeWhile_append_dropWhile (p := fun c => decide (c ≠ '/'))
      (l := path.toList.reverse)
    rw [hd, hc] at this
    have := congrArg List.reverse this
    simpa [lastSegment] using this.symm

theorem slash_not_mem_lastSegment (path : String) : '/' ∉ (lastSegment path).toList := by
  intro hmem
  rw [lastSegment, String.toList_ofList, List.mem_reverse] at hmem
  simpa using List.all_eq_true.1 List.all_takeWhile _ hmem

/-- A path without a parent has no slash. -/
theorem slash_not_mem_of_parentPath?_eq_none {path : String} (h : parentPath? path = none) :
    '/' ∉ path.toList := by
  unfold parentPath? at h
  split at h
  · next hd =>
    -- all of the path is last segment
    have := List.takeWhile_append_dropWhile (p := fun c => decide (c ≠ '/')) (l := path.toList.reverse)
    rw [hd, List.append_nil] at this
    have hlast := slash_not_mem_lastSegment path
    rwa [lastSegment, this, List.reverse_reverse, String.ofList_toList] at hlast
  · cases h

/-! ## Entries -/

/-- What an entry is. -/
inductive EntryKind
  | directory
  | file
  deriving DecidableEq, Repr, Ord, Inhabited

namespace EntryKind

/-- The byte that stands for a kind in an image. -/
def tag : EntryKind → UInt8
  | directory => 0
  | file => 1

/-- The kind that a byte stands for. -/
def ofTag? (tag : UInt8) : Option EntryKind :=
  if tag = 0 then some directory else if tag = 1 then some file else none

@[simp] theorem ofTag?_tag (kind : EntryKind) : ofTag? kind.tag = some kind := by
  cases kind <;> rfl

theorem tag_of_ofTag? {tag : UInt8} {kind : EntryKind} (h : ofTag? tag = some kind) :
    kind.tag = tag := by
  unfold ofTag? at h
  split at h
  · next ht => cases h; exact ht.symm
  · split at h
    · next ht => cases h; exact ht.symm
    · cases h

/-- The name of a kind in reports. -/
def name : EntryKind → String
  | directory => "directory"
  | file => "file"

end EntryKind

/-- One directory or file of an embedded tree. -/
structure Entry where
  path : String
  kind : EntryKind
  size : UInt64
  offset : UInt64
  digest : Digest
  mode : Option UInt32
  deriving DecidableEq, Inhabited

namespace Entry

/-- A directory entry. -/
def directory (path : String) (mode : Option UInt32) : Entry :=
  ⟨path, .directory, 0, 0, .zero, mode⟩

/-- A file entry. -/
def file (path : String) (offset size : UInt64) (digest : Digest) (mode : Option UInt32) : Entry :=
  ⟨path, .file, size, offset, digest, mode⟩

/-- Whether this entry is a directory. -/
def isDirectory (e : Entry) : Bool := e.kind == .directory

/-- Whether this entry is a file. -/
def isFile (e : Entry) : Bool := e.kind == .file

/-- An entry that is no file is a directory. -/
theorem isDirectory_eq_not_isFile (e : Entry) : e.isDirectory = !e.isFile := by
  rw [isDirectory, isFile]
  cases e.kind <;> rfl

theorem isFile_eq_false_iff {e : Entry} : e.isFile = false ↔ e.kind = .directory := by
  rw [isFile]
  cases e.kind <;> decide

/-- Where the content of an entry starts in the blob. -/
def start (e : Entry) : Nat := e.offset.toNat

/-- Where the content of an entry ends in the blob, as an exact number. -/
def stop (e : Entry) : Nat := e.offset.toNat + e.size.toNat

/-- The end of the content as sixty-four bits show it: a larger number is cut to the largest. -/
def stopWord (e : Entry) : Nat := min e.stop (UInt64.size - 1)

/-- The sum of the sizes of some entries. -/
def totalBytes (es : List Entry) : Nat := es.foldr (fun e sum => e.size.toNat + sum) 0

@[simp] theorem totalBytes_nil : totalBytes [] = 0 := rfl

@[simp] theorem totalBytes_cons (e : Entry) (es : List Entry) :
    totalBytes (e :: es) = e.size.toNat + totalBytes es := rfl

/-- The path of the directory that an entry lies in, if its path names one. -/
def parent? (e : Entry) : Option String := parentPath? e.path

/-- Canonical order: directories before files, and by the bytes of the path within a kind. -/
def order (a b : Entry) : Ordering :=
  (compare a.kind b.kind).then (compare (utf8 a.path) (utf8 b.path))

end Entry

end TreeImage
