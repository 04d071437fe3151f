import TreeImage.FileSystem.Basic

set_option autoImplicit false

/-! # From paths to places

Walking a path goes from directory to directory and follows symbolic links, at most `linkLimit` of them
in all. `resolve` leads to the node that a path names; `spot` to the place where a path would have a
node created, replaced or removed. -/

namespace TreeImage

/-! ## Refusals -/

/-- Why the system refuses a call. -/
inductive Refusal
  | notFound
  | alreadyExists
  | notDirectory
  | isDirectory
  | busy
  | invalidArgument
  | nameTooLong
  | directoryNotEmpty
  | tooManyLinks
  | nulByte
  | invalidUtf8
  deriving DecidableEq, Repr

/-- The wording of a refusal. -/
def Refusal.message : Refusal → String
  | notFound => "No such file or directory (os error 2)"
  | busy => "Device or resource busy (os error 16)"
  | alreadyExists => "File exists (os error 17)"
  | notDirectory => "Not a directory (os error 20)"
  | isDirectory => "Is a directory (os error 21)"
  | invalidArgument => "Invalid argument (os error 22)"
  | nameTooLong => "File name too long (os error 36)"
  | directoryNotEmpty => "Directory not empty (os error 39)"
  | tooManyLinks => "Too many levels of symbolic links (os error 40)"
  | nulByte => "file name contained an unexpected NUL byte"
  | invalidUtf8 => "stream did not contain valid UTF-8"

/-! ## Walking -/

/-- How many symbolic links one walk may follow. -/
def linkLimit : Nat := 40

/-- The longest name a directory can hold, in bytes. -/
def nameLimit : Nat := 255

/-- Where a walk along `target` starts that begins in the directory `base`. -/
def walkStart (target : Bytes) (base : RealPath) : RealPath :=
  if target.head? = some slash then [] else base

namespace FileSystem

/-- Walk from the directory `base` along names; `onLink` takes over where a link is followed. The last name
    may be a link that stays unfollowed. -/
def walkNames (fs : FileSystem) (onLink : RealPath → List Bytes → Except Refusal RealPath)
    (followLast : Bool) : RealPath → List Bytes → Except Refusal RealPath
  | base, [] => .ok base
  | base, s :: rest =>
    match fs.get? base with
    | none => .error .notFound
    | some (.directory _) =>
      if s = [] ∨ s = dotName then walkNames fs onLink followLast base rest
      else if s = dotDotName then walkNames fs onLink followLast base.dropLast rest
      else if nameLimit < s.length then .error .nameTooLong
      else match fs.get? (base ++ [s]) with
        | none => .error .notFound
        | some (.symlink target) =>
          if rest = [] ∧ !followLast then .ok (base ++ [s])
          else if target = [] then .error .notFound
          else onLink (walkStart target base) (segments slash target ++ rest)
        | some _ => walkNames fs onLink followLast (base ++ [s]) rest
    | some _ => .error .notDirectory

/-- Walk along names and follow at most `links` links. -/
def walk (fs : FileSystem) (followLast : Bool) :
    Nat → RealPath → List Bytes → Except Refusal RealPath
  | 0 => fs.walkNames (fun _ _ => .error .tooManyLinks) followLast
  | links + 1 => fs.walkNames (fs.walk followLast links) followLast

/-- What is refused whatever the file system holds: the empty path, and a path with a NUL byte. -/
def admissible (p : Path) : Except Refusal Unit :=
  if p.hasNul then .error .nulByte
  else if p.isEmpty then .error .notFound
  else .ok ()

/-- The place of the node that a path names. If the path ends in a link, `followLast` decides whether the
    node is the link or what it leads to. -/
def resolve (fs : FileSystem) (followLast : Bool) (p : Path) : Except Refusal RealPath :=
  match admissible p with
  | .error e => .error e
  | .ok () => fs.walk followLast linkLimit (walkStart p.bytes fs.cwd) p.rawSegments

/-- The node that a path names. -/
def find (fs : FileSystem) (followLast : Bool) (p : Path) : Except Refusal (RealPath × Node) :=
  match fs.resolve followLast p with
  | .error e => .error e
  | .ok r =>
    match fs.get? r with
    | none => .error .notFound
    | some n => .ok (r, n)

/-! ## Places for entries -/

/-- A directory and how the last segment of a path continues from it. -/
structure Spot where
  directory : RealPath
  last : Name
  finalSlash : Bool
  deriving DecidableEq, Repr

/-- The place a spot stands for. -/
def Spot.place (s : Spot) : RealPath := s.directory ++ [s.last]

/-- Whether the last segment is a name, and not a dot, a double dot or nothing at all. -/
def Spot.isPlain (s : Spot) : Bool := s.last ≠ [] && s.last ≠ dotName && s.last ≠ dotDotName

/-- Where a path would have an entry. All but its last segment is followed to a directory. -/
def spot (fs : FileSystem) (p : Path) : Except Refusal Spot :=
  match admissible p with
  | .error e => .error e
  | .ok () =>
    let reversed := p.rawSegments.reverse.dropWhile (· = [])
    match fs.walk true linkLimit (walkStart p.bytes fs.cwd) reversed.tail.reverse with
    | .error e => .error e
    | .ok directory =>
      match fs.get? directory with
      | none => .error .notFound
      | some (.directory _) =>
        let s : Spot := ⟨directory, reversed.headD [], p.bytes.getLast? = some slash⟩
        if nameLimit < s.last.length then .error .nameTooLong else .ok s
      | some _ => .error .notDirectory

end FileSystem

end TreeImage
