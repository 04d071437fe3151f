import TreeImage.FileSystem.Staged

set_option autoImplicit false

/-! # Directories that have to be there

`ensureDirectory` makes a single level and accepts one that exists; `makeDirectories` makes every level
that is missing. -/

namespace TreeImage

/-- What `ensureDirectory` did. -/
inductive DirectoryState
  | created
  | existing
  deriving DecidableEq, Repr

/-- Make the directory at a path whose entry is free, with a mode if one is wanted. -/
def createMissing (p : Path) (mode : Option UInt32) :
    Program Files (Except FsError DirectoryState) := do
  match ← Files.makeDirectory p with
  | .ok () =>
    match ← applyMode? p mode with
    | .ok () => return .ok .created
    | .error e => return .error e
  | .error .alreadyExists =>
    if ← Files.isDirectory p then return .ok .existing
    else return .error (.createDirectory p .alreadyExists)
  | .error e => return .error (.createDirectory p e)

/-- Let a directory stand at a path whose parent exists. A link is accepted if it leads to a directory;
    where it leads is for the caller to check. -/
def ensureDirectory (p : Path) (mode : Option UInt32) :
    Program Files (Except FsError DirectoryState) := do
  match ← Files.inspectLink p with
  | .ok info =>
    match info.kind with
    | .directory => return .ok .existing
    | .symlink =>
      if ← Files.isDirectory p then return .ok .existing else return .error (.notADirectory p)
    | _ => return .error (.notADirectory p)
  | .error .notFound => createMissing p mode
  | .error e => return .error (.read p ⟨e, none⟩)

/-- Make one directory; one that is there already will do. -/
def makeOrAccept (p : Path) : Program Files (Except Refusal Unit) := do
  match ← Files.makeDirectory p with
  | .ok () => return .ok ()
  | .error e => if ← Files.isDirectory p then return .ok () else return .error e

/-- Make the directory at the first `depth` names of `place`. Where its parent is missing, that one is
    made first. -/
def makeAlong (place : RealPath) : Nat → Program Files (Except Refusal Unit)
  | 0 => return .ok ()
  | depth + 1 => do
    let p := RealPath.toPath (place.take (depth + 1))
    match ← Files.makeDirectory p with
    | .ok () => return .ok ()
    | .error .notFound =>
      match ← makeAlong place depth with
      | .error e => return .error e
      | .ok () => makeOrAccept p
    | .error e => if ← Files.isDirectory p then return .ok () else return .error e

/-- Make the directory at a place, and every directory on the way there that is missing. -/
def makeDirectories (place : RealPath) : Program Files (Except Refusal Unit) :=
  makeAlong place place.length

end TreeImage
