import TreeImage.Image.Error
import TreeImage.Manifest.Basic

set_option autoImplicit false

/-! # Structural checks on manifests

`Manifest.validate` accepts a manifest whose paths are present, unique and in canonical order, whose
directories carry no content, whose files have disjoint content inside the blob, and where every entry
comes after a directory entry for its parent. The safety of paths is no concern of this check: that is
for extraction to decide. -/

namespace TreeImage

namespace Manifest

/-! ## One entry after another -/

/-- Check one entry against those before it, `before`, newest first. -/
def checkEntry (blobLength : Nat) (before : List Entry) (e : Entry) : Except FormatError Unit :=
  if e.path.isEmpty then .error (.emptyPath before.length)
  else if before.any (·.path == e.path) then .error (.duplicatePath e.path)
  else if before.head?.any (·.order e != .lt) then .error (.outOfOrder e.path)
  else match e.kind with
    | .directory =>
      if e.size ≠ 0 ∨ e.offset ≠ 0 ∨ !e.digest.isZero then .error (.directoryWithContent e.path)
      else .ok ()
    | .file =>
      if blobLength < e.stop then
        .error (.rangeOutOfBounds e.path e.offset.toNat e.size.toNat blobLength)
      else .ok ()

/-- Check entries in turn; `before` holds those already checked, newest first. -/
def checkEntries (blobLength : Nat) : List Entry → List Entry → Except FormatError Unit
  | _, [] => .ok ()
  | before, e :: rest =>
    match checkEntry blobLength before e with
    | .error err => .error err
    | .ok () => checkEntries blobLength (e :: before) rest

/-! ## Content ranges -/

/-- Check that each range ends before the next begins. -/
def checkDisjoint : List Entry → Except FormatError Unit
  | a :: b :: rest =>
    if b.start < a.stop then .error (.overlappingContent b.path a.path)
    else checkDisjoint (b :: rest)
  | _ => .ok ()

/-- The files that have content, by where it starts. -/
def byOffset (m : Manifest) : List Entry :=
  (m.files.filter (·.size != 0)).mergeSort fun a b => a.offset ≤ b.offset

/-! ## Parents -/

/-- The parent that an entry needs a directory entry for. A path whose only slash comes first has none;
    extraction refuses it. -/
def neededParent? (e : Entry) : Option String := e.parent?.filter (!·.isEmpty)

/-- Whether `e` is the directory with this path. -/
def isDirectoryAt (path : String) (e : Entry) : Bool := e.isDirectory && e.path == path

/-- Check that every entry's parent is a directory among those before it. -/
def checkParents : List Entry → List Entry → Except FormatError Unit
  | _, [] => .ok ()
  | before, e :: rest =>
    match neededParent? e with
    | none => checkParents (e :: before) rest
    | some parent =>
      if before.any (isDirectoryAt parent) then checkParents (e :: before) rest
      else .error (.missingParent e.path parent)

/-! ## All checks -/

/-- Check a manifest against the length of its blob. -/
def validate (m : Manifest) (blobLength : Nat) : Except FormatError Unit := do
  checkEntries blobLength [] m.entries
  checkDisjoint m.byOffset
  checkParents [] m.entries

end Manifest

end TreeImage
