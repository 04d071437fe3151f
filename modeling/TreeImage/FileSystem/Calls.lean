import TreeImage.FileSystem.Walk

set_option autoImplicit false

/-! # What a process can do to a file system

One definition for each call. A call that is refused changes nothing. New directories and files get the
modes that a mask of 022 leaves. -/

namespace TreeImage

/-- What a caller learns about a node. -/
structure NodeInfo where
  kind : NodeKind
  mode : UInt32
  size : Nat
  deriving DecidableEq, Repr

/-- Whether the node is a directory. -/
def NodeInfo.isDirectory (i : NodeInfo) : Bool := i.kind == .directory

namespace FileSystem

/-! ## Questions -/

/-- The real spelling of the place that a path leads to. -/
def realPath (fs : FileSystem) (p : Path) : Except Refusal Path :=
  (fs.find true p).map fun (r, _) => r.toPath

/-- What stands at a path; `followLast` says whether a link at its end is followed. -/
def inspect (fs : FileSystem) (followLast : Bool) (p : Path) : Except Refusal NodeInfo :=
  (fs.find followLast p).map fun (_, n) => ⟨n.kind, n.mode &&& modeMask, n.content.length⟩

/-- Whether a path leads to a directory. -/
def isDirectory (fs : FileSystem) (p : Path) : Bool :=
  match fs.inspect true p with
  | .ok i => i.isDirectory
  | .error _ => false

/-- The content of the file at a path. -/
def read (fs : FileSystem) (p : Path) : Except Refusal Bytes :=
  match fs.find true p with
  | .error e => .error e
  | .ok (_, .directory _) => .error .isDirectory
  | .ok (_, n) => .ok n.content

/-- The names in the directory at a path. -/
def list (fs : FileSystem) (p : Path) : Except Refusal (List Name) :=
  match fs.find true p with
  | .error e => .error e
  | .ok (r, .directory _) => .ok (fs.children r)
  | .ok _ => .error .notDirectory

/-! ## Changes -/

/-- The mode of a new directory inside one of mode `parent`: the set-group bit is handed down. -/
def newDirectoryMode (parent : UInt32) : UInt32 := 0o755 ||| (parent &&& 0o2000)

/-- The mode of a new file. -/
def newFileMode : UInt32 := 0o644

/-- Make one directory. -/
def makeDirectory (fs : FileSystem) (p : Path) : Except Refusal FileSystem :=
  match fs.spot p with
  | .error e => .error e
  | .ok s =>
    if !s.isPlain then .error .alreadyExists
    else match fs.get? s.place with
      | some _ => .error .alreadyExists
      | none =>
        let parent := ((fs.get? s.directory).map (·.mode)).getD 0
        .ok (fs.put s.place (.directory (newDirectoryMode parent)))

/-- Set the mode of the node that a path leads to. -/
def setMode (fs : FileSystem) (p : Path) (mode : UInt32) : Except Refusal FileSystem :=
  match fs.find true p with
  | .error e => .error e
  | .ok (r, n) => .ok (fs.put r (n.withMode (mode &&& modeMask)))

/-- Remove the entry at a path, which must be no directory. -/
def remove (fs : FileSystem) (p : Path) : Except Refusal FileSystem :=
  match fs.spot p with
  | .error e => .error e
  | .ok s =>
    if !s.isPlain then .error .isDirectory
    else match fs.get? s.place with
      | none => .error .notFound
      | some (.directory _) => .error .isDirectory
      | some _ => if s.finalSlash then .error .notDirectory else .ok (fs.erase s.place)

/-- Move a node that is no directory to `target`, over whatever is there that is no directory either. -/
def moveNode (fs : FileSystem) (source target : Spot) (n : Node) : Except Refusal FileSystem :=
  if source.finalSlash || target.finalSlash then .error .notDirectory
  else if fs.isDirectoryAt target.place then .error .isDirectory
  else if source.place = target.place then .ok fs
  else .ok ((fs.erase source.place).put target.place n)

/-- Move a directory and everything below it to `target`, which must be free or an empty directory. -/
def moveDirectory (fs : FileSystem) (source target : Spot) : Except Refusal FileSystem :=
  if source.place = target.place then .ok fs
  else if source.place.isPrefixOf target.place then .error .invalidArgument
  else match fs.get? target.place with
    | none => .ok (fs.moveTree source.place target.place)
    | some (.directory _) =>
      if (fs.children target.place).isEmpty then
        .ok ((fs.eraseTree target.place).moveTree source.place target.place)
      else .error .directoryNotEmpty
    | some _ => .error .notDirectory

/-- Move the entry at `p` to `q`. -/
def rename (fs : FileSystem) (p q : Path) : Except Refusal FileSystem :=
  match fs.spot p with
  | .error e => .error e
  | .ok source =>
    match fs.spot q with
    | .error e => .error e
    | .ok target =>
      if !source.isPlain || !target.isPlain then .error .busy
      else match fs.get? source.place with
        | none => .error .notFound
        | some (.directory _) => fs.moveDirectory source target
        | some n => fs.moveNode source target n

/-! ## Temporary files -/

/-- The characters that tell temporary files apart, the most likely one first. -/
def tokenAlphabet : List UInt8 :=
  utf8 "XABCDEFGHIJKLMNOPQRSTUVWYZabcdefghijklmnopqrstuvwxyz0123456789"

/-- The token of number `n`, written from its last place on, with at least `width` places. -/
def tokenFrom : Nat → Nat → Nat → Bytes
  | 0, _, _ => []
  | fuel + 1, width, n =>
    if width = 0 ∧ n = 0 then []
    else tokenAlphabet.getD (n % 62) 0 :: tokenFrom fuel (width - 1) (n / 62)

/-- Token number `n`: six characters, and more only past all tokens of six. -/
def token (n : Nat) : Bytes := tokenFrom (n + 7) 6 n

/-- The name of temporary file number `n` for a file called `name`. -/
def temporaryName (name : Name) (n : Nat) : Name :=
  46 :: name ++ 46 :: token n ++ utf8 ".tmp"

/-- The first temporary name that is not taken in the directory `base`. One of as many candidates as
    there are nodes, and one more, is free. -/
def freshName (fs : FileSystem) (base : RealPath) (name : Name) : Name :=
  let taken n := (fs.get? (base ++ [temporaryName name n])).isSome
  temporaryName name (((List.range (fs.nodes.length + 1)).find? (!taken ·)).getD 0)

/-- A path that does not depend on the working directory. -/
def absolute (fs : FileSystem) (p : Path) : Path :=
  if p.isAbsolute then p else fs.cwd.toPath.join p

/-- A refusal, and the path it was about if the caller is told. -/
structure Fault where
  refusal : Refusal
  path : Option Path
  deriving DecidableEq, Repr

/-- Make an empty file under a fresh name, for a file called `name`, in a directory. The answer is the
    path of the new file and its place. -/
def createTemporary (fs : FileSystem) (directory : Path) (name : Name) :
    Except Fault ((Path × RealPath) × FileSystem) :=
  let directory := fs.absolute directory
  let refuse (e : Refusal) : Fault := ⟨e, some (directory.push (temporaryName name 0))⟩
  if name.contains 0 then .error (refuse .nulByte)
  else match fs.find true directory with
    | .error e => .error (refuse e)
    | .ok (r, .directory _) =>
      let fresh := fs.freshName r name
      if nameLimit < fresh.length then .error (refuse .nameTooLong)
      else .ok ((directory.push fresh, r ++ [fresh]), fs.put (r ++ [fresh]) (.file newFileMode []))
    | .ok _ => .error (refuse .notDirectory)

/-- Give the open file at a place its content. A file that was removed in the meantime has no place and
    keeps the content to itself. -/
def writeOpen (fs : FileSystem) (place : RealPath) (content : Bytes) : FileSystem :=
  match fs.get? place with
  | some (.file mode _) => fs.put place (.file mode content)
  | _ => fs

end FileSystem

end TreeImage
