import TreeImage.FileSystem.Access
import TreeImage.FileSystem.Error

set_option autoImplicit false

/-! # Files that appear at once

New content first goes into a temporary file beside its destination, a `StagedFile`, and is then moved
over the destination in one step. Until then nothing shows at the destination, and every failure on the
way removes the temporary file. -/

namespace TreeImage

/-- How a file is to be written. -/
structure WriteOptions where
  mode : Option UInt32 := none
  sync : Bool := false
  deriving DecidableEq, Repr, Inhabited

/-- The mode of a file that is written. -/
def WriteOptions.fileMode (options : WriteOptions) : UInt32 :=
  (options.mode.map (· &&& modeMask)).getD FileSystem.newFileMode

/-- Content beside its destination: the path of the temporary file, its place, and where it is to go. -/
structure StagedFile where
  path : Path
  place : RealPath
  destination : Path
  deriving DecidableEq, Repr

/-- Set the mode of the node at a path. -/
def applyMode (p : Path) (mode : UInt32) : Program Files (Except FsError Unit) := do
  match ← Files.setMode p mode with
  | .ok () => return .ok ()
  | .error e => return .error (.permissions p e)

/-- Set the mode of the node at a path, if one is wanted. -/
def applyMode? (p : Path) : Option UInt32 → Program Files (Except FsError Unit)
  | none => return .ok ()
  | some mode => applyMode p mode

namespace StagedFile

/-- The directory in which the files beside `destination` lie. -/
def directoryOf (destination : Path) : Path :=
  match destination.parent? with
  | some p => if p.isEmpty then .here else p
  | none => .here

/-- Remove the temporary file. -/
def discard (s : StagedFile) : Program Files Unit := do
  let _ ← Files.remove s.path

/-- Put `content` beside `destination`. -/
def create (destination : Path) (content : Bytes) (options : WriteOptions) :
    Program Files (Except FsError StagedFile) :=
  match destination.fileName? with
  | none => return .error (.noFileName destination)
  | some name => do
    match ← Files.createTemporary (directoryOf destination) (utf8 (lossy name)) with
    | .error fault => return .error (.write destination fault)
    | .ok (path, place) =>
      let staged : StagedFile := ⟨path, place, destination⟩
      Files.writeOpen place content
      match ← applyMode? path options.mode with
      | .error e =>
        staged.discard
        return .error e
      | .ok () =>
        if options.sync then Files.flush place
        return .ok staged

/-- Read the staged content back. -/
def reopen (s : StagedFile) : Program Files (Except FsError Bytes) := do
  match ← Files.read s.path with
  | .ok content => return .ok content
  | .error e => return .error (.read s.path ⟨e, some s.path⟩)

/-- Move the staged content over its destination. If that is refused, the temporary file is removed. -/
def commit (s : StagedFile) : Program Files (Except FsError Unit) := do
  match ← Files.rename s.path s.destination with
  | .ok () => return .ok ()
  | .error e =>
    s.discard
    return .error (.write s.destination ⟨e, none⟩)

end StagedFile

/-- Write a file so that readers see either what was there before or all of `content`. -/
def atomicWrite (destination : Path) (content : Bytes) (options : WriteOptions) :
    Program Files (Except FsError Unit) := do
  match ← StagedFile.create destination content options with
  | .error e => return .error e
  | .ok staged => staged.commit

end TreeImage
