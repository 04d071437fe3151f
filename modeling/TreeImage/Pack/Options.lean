import TreeImage.Path.Basic

set_option autoImplicit false

/-! # How to pack

The options of a packing run. -/

namespace TreeImage

/-- What to do about a symbolic link in the source tree. -/
inductive SymlinkPolicy
  | reject
  | skip
  deriving DecidableEq, Repr, Inhabited

/-- The cap on the sum of all file sizes unless another is given: 1 GiB. -/
def defaultMaxTotalSize : Nat := 1024 * 1024 * 1024

/-- The name of the ignore file that is looked for in the source root. -/
def defaultIgnoreName : Name := utf8 ".embedignore"

/-- The options of a packing run. -/
structure PackOptions where
  maxTotalSize : Nat := defaultMaxTotalSize
  ignoreFile : Option Path := none
  symlinks : SymlinkPolicy := .reject
  preservePermissions : Bool := true
  deriving DecidableEq, Repr, Inhabited

end TreeImage
