import TreeImage.Path.Basic

set_option autoImplicit false

/-! # Lexical normal form

`Path.normal` works out the dots of an absolute path without looking at the file system: the names are
kept on a stack, and a double dot takes the last one off, if there is one. -/

namespace TreeImage

namespace Path

/-- The effect of one step on the names so far, the last one first. -/
def climb (names : List Name) : Component → List Name
  | .root => []
  | .here => names
  | .up => names.tail
  | .name n => n :: names

/-- The names that the steps of a path lead to. -/
def normalNames (p : Path) : RealPath := (p.components.foldl climb []).reverse

/-- The normal form of an absolute path. -/
def normal (p : Path) : Path := p.normalNames.toPath

end Path

end TreeImage
