import TreeImage.Extract.Error
import TreeImage.Extract.Options
import TreeImage.Path.Normal

set_option autoImplicit false

/-! # From entry paths to destinations

`resolveRoot` turns what the caller gave into the absolute path of the target root. `sanitize` puts an
entry path below a root; it accepts plain relative paths of named segments only. -/

namespace TreeImage

/-! ## The target root -/

/-- The root that is meant when no target is given. -/
def defaultRoot (cwd executable : Path) : DefaultRoot → Except ExtractError Path
  | .currentDirectory => .ok cwd.normal
  | .executableDirectory =>
    match executable.parent? with
    | none => .error (.invalidRoot executable .noParent)
    | some directory => .ok directory.normal

/-- The absolute, normal path of a target; a relative one starts at the working directory. -/
def absoluteRoot (cwd target : Path) : Except ExtractError Path :=
  if target.isEmpty then .error (.invalidRoot target .empty)
  else if target.hasNul then .error (.invalidRoot target .nulByte)
  else .ok (cwd.join target).normal

/-- The target root of a run. -/
def resolveRoot (cwd executable : Path) (default : DefaultRoot) :
    Option Path → Except ExtractError Path
  | some target => absoluteRoot cwd target
  | none => defaultRoot cwd executable default

/-! ## Entry paths -/

/-- Whether a path starts with a letter and a colon. -/
def hasDrivePrefix (path : List Char) : Bool :=
  match path with
  | c :: ':' :: _ => c.isAlpha
  | _ => false

/-- What is wrong with a path before it is cut into segments. -/
def pathFault? (path : String) : Option PathFault :=
  if path.isEmpty then some .empty
  else if path.toList.head? = some '/' then some .absolute
  else if path.toList.contains '\x00' then some .nulByte
  else if path.toList.contains '\\' then some .backslash
  else if hasDrivePrefix path.toList then some .drivePrefix
  else none

/-- The bytes of a segment. -/
def segmentName (s : List Char) : Name := utf8 (String.ofList s)

/-- What is wrong with one segment. -/
def segmentFault? (s : List Char) : Option PathFault :=
  if s = [] then some .emptySegment
  else if s = ['.'] then some .dotSegment
  else if s = ['.', '.'] then some .dotDotSegment
  else if (Path.mk (segmentName s)).components ≠ [.name (segmentName s)] then some .notPlain
  else none

/-- The destination of an entry path below `root`. Segments without fault are names, so pushing them one
    after the other is the same as joining the whole path. -/
def sanitize (root : Path) (path : String) : Except ExtractError Path :=
  match pathFault? path with
  | some fault => .error (.unsafePath path fault)
  | none =>
    match (pathSegments path).findSome? segmentFault? with
    | some fault => .error (.unsafePath path fault)
    | none =>
      let destination := root.join (.ofString path)
      if destination.isWithin root && !destination.sameAs root then .ok destination
      else .error (.escape path destination)

end TreeImage
