import TreeImage.Extract.Report
import TreeImage.Extract.Options
import TreeImage.FileSystem.Directory

set_option autoImplicit false

/-! # Bringing one entry to its destination

Before anything is made or replaced, the real place of the parent directory is compared with the real
target root. File content is staged, read back and checked before it goes into place. -/

namespace TreeImage

/-! ## Staying inside the root -/

/-- The real place of a path, if it lies inside the real root. -/
def confirmWithin (realRoot p : Path) (entry : String) :
    Program Files (Except ExtractError Path) := do
  match ← Files.realPath p with
  | .error e => return .error (.write p e)
  | .ok real =>
    if real.isWithin realRoot then return .ok real else return .error (.escape entry real)

/-- Confirm the directory that `destination` lies in. -/
def confirmParent (realRoot destination : Path) (entry : String) :
    Program Files (Except ExtractError Unit) :=
  match destination.parent? with
  | none => return .ok ()
  | some parent => return (← confirmWithin realRoot parent entry).map fun _ => ()

/-! ## Directories -/

/-- Something other than a directory in the place of one is a conflict. -/
def directoryError : FsError → ExtractError
  | .notADirectory path => .conflict path .nonDirectory
  | e => .fs e

/-- Let a directory stand at the destination of a directory entry. The real place of what is there
    afterwards is confirmed as well. -/
def createDirectory (realRoot destination : Path) (entry : String) :
    Program Files (Except ExtractError DirectoryState) := do
  match ← confirmParent realRoot destination entry with
  | .error e => return .error e
  | .ok () =>
    match ← ensureDirectory destination none with
    | .error e => return .error (directoryError e)
    | .ok state => return (← confirmWithin realRoot destination entry).map fun _ => state

/-! ## Files -/

/-- The digest of the regular file at a destination; none if nothing is there. -/
def existingDigest (destination : Path) : Program Files (Except ExtractError (Option Digest)) := do
  match ← Files.inspectLink destination with
  | .error .notFound => return .ok none
  | .error e => return .error (.write destination e)
  | .ok info =>
    match info.kind with
    | .symlink => return .error (.conflict destination .symlink)
    | .directory => return .error (.conflict destination .directory)
    | .special => return .error (.conflict destination .special)
    | .file =>
      match ← Files.read destination with
      | .error e => return .error (.write destination e)
      | .ok content => return .ok (some (.of content))

/-- Stage `content`, digest what was staged, and move it over the destination if that is the expected
    digest. -/
def writeVerified (destination : Path) (content : Bytes) (expected : Digest) (options : WriteOptions) :
    Program Files (Except ExtractError Unit) := do
  match ← StagedFile.create destination content options with
  | .error e => return .error (.fs e)
  | .ok staged =>
    match ← staged.reopen with
    | .error e =>
      staged.discard
      return .error (.fs e)
    | .ok written =>
      if Digest.of written ≠ expected then
        staged.discard
        return .error (.writeVerification destination expected (.of written))
      else
        match ← staged.commit with
        | .error e => return .error (.fs e)
        | .ok () => return .ok ()

/-- What a policy says about a file that exists: the outcome of leaving it, or none if it is to be
    replaced. -/
def OverwritePolicy.leave? (policy : OverwritePolicy) (unchanged : Bool) : Option Outcome :=
  match policy, unchanged with
  | .skipExisting, true => some .skippedUnchanged
  | .skipExisting, false => some .diverged
  | .overwriteIfChanged, true => some .skippedUnchanged
  | .overwriteIfChanged, false => none
  | .forceOverwrite, _ => none

/-- Bring a file entry to its destination. -/
def writeFile (options : ExtractOptions) (realRoot destination : Path) (e : Entry) (content : Bytes) :
    Program Files (Except ExtractError Outcome) := do
  match ← confirmParent realRoot destination e.path with
  | .error err => return .error err
  | .ok () =>
    let write : WriteOptions := ⟨e.mode, options.sync⟩
    match ← existingDigest destination with
    | .error err => return .error err
    | .ok none =>
      return (← writeVerified destination content e.digest write).map fun _ => .created
    | .ok (some existing) =>
      match options.overwrite.leave? (existing == e.digest) with
      | some outcome => return .ok outcome
      | none =>
        return (← writeVerified destination content e.digest write).map fun _ => .overwritten

end TreeImage
