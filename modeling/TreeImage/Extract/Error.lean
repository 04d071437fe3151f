import TreeImage.Digest.Basic
import TreeImage.FileSystem.Error
import TreeImage.Image.Error

set_option autoImplicit false

/-! # What can go wrong in a run

An `ExtractError` is the cause of a failure, of one entry or of the run. Reports carry its kind and its
wording. -/

namespace TreeImage

/-! ## Causes -/

/-- What makes a path unusable, as an entry path or as a root. -/
inductive PathFault
  | empty
  | absolute
  | nulByte
  | backslash
  | drivePrefix
  | emptySegment
  | dotSegment
  | dotDotSegment
  | notPlain
  | noParent
  deriving DecidableEq, Repr

/-- The wording of a path fault. -/
def PathFault.message : PathFault → String
  | empty => "path is empty"
  | absolute => "path is absolute"
  | nulByte => "path contains a NUL byte"
  | backslash => "path contains a backslash"
  | drivePrefix => "path has a drive prefix"
  | emptySegment => "path has an empty segment"
  | dotSegment => "path has a '.' segment"
  | dotDotSegment => "path has a '..' segment"
  | notPlain => "path segment is not a plain name"
  | noParent => "executable path has no parent directory"

/-- What stands where an entry should go. -/
inductive Obstacle
  | directory
  | symlink
  | special
  | nonDirectory
  deriving DecidableEq, Repr

/-- The wording of an obstacle. -/
def Obstacle.message : Obstacle → String
  | directory => "a directory"
  | symlink => "a symbolic link"
  | special => "a special file"
  | nonDirectory => "a non-directory"

/-- The cause of a failure. -/
inductive ExtractError
  | format (e : FormatError)
  | unsafePath (path : String) (fault : PathFault)
  | escape (path : String) (resolved : Path)
  | invalidRoot (path : Path) (fault : PathFault)
  | targetNotDirectory (path : Path)
  | target (path : Path) (refusal : Refusal)
  | conflict (path : Path) (found : Obstacle)
  | write (path : Path) (refusal : Refusal)
  | writeVerification (path : Path) (expected actual : Digest)
  | cancelled
  | aborted (cause : ExtractError) (committed : List String)
  | fs (e : FsError)
  deriving DecidableEq

/-! ## Kinds -/

/-- The coarse kind of a cause. -/
inductive ErrorKind
  | format
  | path
  | conflict
  | write
  | writeVerification
  | target
  | cancellation
  deriving DecidableEq, Repr

/-- The name of a kind in reports. -/
def ErrorKind.name : ErrorKind → String
  | format => "format"
  | path => "path"
  | conflict => "conflict"
  | write => "write"
  | writeVerification => "write_verification"
  | target => "target"
  | cancellation => "cancellation"

namespace ExtractError

/-- The kind of a cause. An aborted run has the kind of what aborted it. -/
def kind : ExtractError → ErrorKind
  | format _ => .format
  | unsafePath _ _ => .path
  | escape _ _ => .path
  | invalidRoot _ _ => .path
  | targetNotDirectory _ => .target
  | target _ _ => .target
  | conflict _ _ => .conflict
  | write _ _ => .write
  | writeVerification _ _ _ => .writeVerification
  | cancelled => .cancellation
  | aborted cause _ => cause.kind
  | fs _ => .write

/-- Whether a path or where it leads is at fault. -/
def isPathError (e : ExtractError) : Bool := e.kind == .path

/-- The wording of a cause. -/
def message : ExtractError → String
  | format e => e.message
  | unsafePath path fault => s!"unsafe entry path '{path}': {fault.message}"
  | escape path resolved => s!"entry '{path}' resolves to '{resolved}', outside the target root"
  | invalidRoot path fault => s!"invalid target root '{path}': {fault.message}"
  | targetNotDirectory path => s!"target root '{path}' exists and is not a directory"
  | target path refusal => s!"failed to prepare target root '{path}': {refusal.message}"
  | conflict path found => s!"'{path}' is occupied by {found.message}"
  | write path refusal => s!"failed to write '{path}': {refusal.message}"
  | writeVerification path expected actual =>
    s!"content written for '{path}' has digest {actual}, manifest expects {expected}"
  | cancelled => "extraction cancelled"
  | aborted cause committed =>
    s!"{cause.message} (aborted after committing {committed.length} files)"
  | fs e => e.message

end ExtractError

end TreeImage
