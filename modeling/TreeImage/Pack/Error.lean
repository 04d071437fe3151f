import TreeImage.FileSystem.Error
import TreeImage.Ignore.Pattern
import TreeImage.Image.Error

set_option autoImplicit false

/-! # What can go wrong in packing

A `PackError` ends a packing run. -/

namespace TreeImage

/-- The cause of a failed packing run. -/
inductive PackError
  | notADirectory (path : Path)
  | backslash (path : Path)
  | nonUtf8 (path : Path)
  | pathTooLong (path : String) (length : Nat)
  | sizeLimit (total limit : Nat)
  | symlink (path : Path)
  | unsupportedFileType (path : Path)
  | read (path : Path) (refusal : Refusal)
  | ignorePattern (file : Path) (pattern : String) (cause : PatternError)
  | missingOutputDirectory
  | format (e : FormatError)
  | fs (e : FsError)
  deriving DecidableEq, Repr

/-- The wording of a cause. -/
def PackError.message : PackError → String
  | notADirectory path => s!"source root '{path}' is not a directory"
  | backslash path => s!"'{path}': contains a backslash"
  | nonUtf8 path => s!"'{path}' is not valid UTF-8"
  | pathTooLong path length =>
    s!"path '{path}' is {length} bytes, at most {maxPathLength} are allowed"
  | sizeLimit total limit => s!"content size {total} exceeds the limit of {limit} bytes"
  | symlink path => s!"symbolic link '{path}' cannot be embedded"
  | unsupportedFileType path => s!"'{path}' is neither a file nor a directory"
  | read path refusal => s!"failed to read '{path}': {refusal.message}"
  | ignorePattern file pattern cause =>
    s!"invalid ignore pattern '{pattern}' in '{file}': {cause.message}"
  | missingOutputDirectory => "OUT_DIR is not set; embed_dir must run from a build script"
  | format e => e.message
  | fs e => e.message

end TreeImage
