import TreeImage.FileSystem.Calls
import TreeImage.Text.Quoted

set_option autoImplicit false

/-! # Failures on the file system

An `FsError` says what was being done to which path when the system refused. -/

namespace TreeImage

/-- The wording of a refusal, with the path it was about. -/
def FileSystem.Fault.message (f : FileSystem.Fault) : String :=
  match f.path with
  | none => f.refusal.message
  | some p => s!"{f.refusal.message} at path {Quoted.path p.bytes}"

/-- A failed operation. -/
inductive FsError
  | write (path : Path) (fault : FileSystem.Fault)
  | read (path : Path) (fault : FileSystem.Fault)
  | createDirectory (path : Path) (refusal : Refusal)
  | notADirectory (path : Path)
  | permissions (path : Path) (refusal : Refusal)
  | noFileName (path : Path)
  deriving DecidableEq, Repr

/-- The wording of a failure. -/
def FsError.message : FsError → String
  | write path fault => s!"failed to write '{path}': {fault.message}"
  | read path fault => s!"failed to read '{path}': {fault.message}"
  | createDirectory path refusal => s!"failed to create directory '{path}': {refusal.message}"
  | notADirectory path => s!"'{path}' exists and is not a directory"
  | permissions path refusal => s!"failed to set permissions on '{path}': {refusal.message}"
  | noFileName path => s!"path has no file name: '{path}'"

end TreeImage
