import TreeImage.FileSystem.Directory

set_option autoImplicit false

/-! # Laying out a file system

Operations for setting a scene: each makes what is missing on the way, and one that is refused leaves
things as they are. -/

namespace TreeImage

namespace FileSystem

/-- A file system that holds nothing but these directories, seen from `cwd`. -/
def blank (directories : List RealPath) (cwd : RealPath) (executable : Path) : FileSystem :=
  ⟨([] :: directories).map fun p => (p, .directory 0o755), cwd, executable⟩

/-- What a call made of the file system, which a refused call leaves as it is. -/
def orSame (fs : FileSystem) (result : Except Refusal FileSystem) : FileSystem :=
  match result with
  | .ok fs => fs
  | .error _ => fs

/-- Make the directory at a path and every one on the way there. -/
def makeAll (fs : FileSystem) (p : Path) : FileSystem :=
  (List.range (p.rawSegments.length + 1)).foldl
    (fun fs n => fs.orSame (fs.makeDirectory ⟨joinSegments slash (p.rawSegments.take n)⟩)) fs

/-- Make the directory that a path lies in. -/
def makeParent (fs : FileSystem) (p : Path) : FileSystem :=
  match p.parent? with
  | none => fs
  | some parent => if parent.isEmpty then fs else fs.makeAll parent

/-- Set a mode, if the path leads anywhere. -/
def withMode (fs : FileSystem) (p : Path) (mode : UInt32) : FileSystem := fs.orSame (fs.setMode p mode)

/-- Lay out a directory. -/
def layDirectory (fs : FileSystem) (p : Path) (mode : UInt32) : FileSystem := (fs.makeAll p).withMode p mode

/-- The place where writing to a path puts a file: links at its end are followed, at most `fuel`. -/
def writePlace? (fs : FileSystem) : Nat → Path → Option RealPath
  | 0, _ => none
  | fuel + 1, p =>
    match fs.spot p with
    | .error _ => none
    | .ok s =>
      match fs.get? s.place with
      | some (.symlink target) => fs.writePlace? fuel (s.directory.toPath.join ⟨target⟩)
      | some (.directory _) => none
      | _ => if s.isPlain then some s.place else none

/-- Lay out a file. An existing one gets new content, also through a link. -/
def layFile (fs : FileSystem) (p : Path) (content : Bytes) (mode : UInt32) : FileSystem :=
  let fs := fs.makeParent p
  match fs.writePlace? (linkLimit + 1) p with
  | none => fs
  | some place => (fs.put place (.file newFileMode content)).withMode p mode

/-- Let `n` stand at a path where nothing stands yet. -/
def layNode (fs : FileSystem) (p : Path) (n : Node) : FileSystem :=
  match fs.spot p with
  | .error _ => fs
  | .ok s => if s.isPlain && (fs.get? s.place).isNone then fs.put s.place n else fs

/-- Lay out a symbolic link. -/
def laySymlink (fs : FileSystem) (p target : Path) : FileSystem :=
  (fs.makeParent p).layNode p (.symlink target.bytes)

/-- Lay out a node that is neither a file nor a directory. -/
def laySpecial (fs : FileSystem) (p : Path) : FileSystem := (fs.makeParent p).layNode p (.special 0o644)

/-- Remove the node at a path and everything below it. -/
def clear (fs : FileSystem) (p : Path) : FileSystem :=
  match fs.spot p with
  | .error _ => fs
  | .ok s => fs.eraseTree s.place

/-- Move the node at a path, with everything below it. -/
def shift (fs : FileSystem) (p q : Path) : FileSystem := fs.orSame (fs.rename p q)

end FileSystem

end TreeImage
