import TreeImage.Manifest.Entry

set_option autoImplicit false

/-! # Manifests

A `Manifest` is the ordered entry table of an image. `canonical` sorts entries into the one order that
images keep. -/

namespace TreeImage

/-- The ordered entry table of an image. -/
structure Manifest where
  entries : List Entry
  deriving DecidableEq, Inhabited

namespace Manifest

/-- The manifest that holds `entries` in canonical order; equal entries keep their order. -/
def canonical (entries : List Entry) : Manifest :=
  ⟨entries.mergeSort fun a b => a.order b != .gt⟩

theorem canonical_perm (entries : List Entry) : (canonical entries).entries.Perm entries :=
  List.mergeSort_perm _ _

/-- The first entry with this path. -/
def get? (m : Manifest) (path : String) : Option Entry := m.entries.find? (·.path == path)

/-- The directory entries, in order. -/
def directories (m : Manifest) : List Entry := m.entries.filter (·.isDirectory)

/-- The file entries, in order. -/
def files (m : Manifest) : List Entry := m.entries.filter (·.isFile)

/-- The number of entries. -/
def size (m : Manifest) : Nat := m.entries.length

/-- Whether there are no entries. -/
def isEmpty (m : Manifest) : Bool := m.entries.isEmpty

/-- The sum of all file sizes. -/
def totalSize (m : Manifest) : Nat := Entry.totalBytes m.files

end Manifest

end TreeImage
