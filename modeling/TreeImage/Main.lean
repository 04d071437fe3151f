import TreeImage.CommandLine.Pack
import TreeImage.FileSystem.Arrange
import TreeImage.Path.Normal

set_option autoImplicit false

/-! # The packer as a program

`main` looks at the places that its command line names, runs the command on what it saw, prints what the
command printed, and puts the files that the command left on the disk. All decisions are those of
`packCommand`; what is here only carries them out. -/

namespace TreeImage

/-! ## Looking -/

/-- What stands at a real place. Permission bits cannot be asked for here, so every node gets those that
    a new one would have, and a link is one to the place where it leads in the end. -/
def lookAt (place : RealPath) : IO (Option Node) := do
  let path := (← IO.currentDir) / place.toPath.display
  try
    match (← path.symlinkMetadata).type with
    | .dir => return some (.directory (FileSystem.newDirectoryMode 0))
    | .file =>
      return some (.file FileSystem.newFileMode (← IO.FS.readBinFile path).data.toList)
    | .symlink => return some (.symlink (utf8 (← IO.FS.realPath path).toString))
    | .other => return some (.special FileSystem.newFileMode)
  catch _ => return none

/-- How deep a tree can be whose paths have no more than 4096 bytes. -/
def depthLimit : Nat := 2048

/-- Look at a place and at everything below it, at most `depth` levels deep. -/
def lookBelow : Nat → RealPath → IO (List (RealPath × Node))
  | 0, _ => return []
  | depth + 1, place => do
    match ← lookAt place with
    | none => return []
    | some n =>
      if n.isDirectory then
        let path := (← IO.currentDir) / place.toPath.display
        let below ← (← path.readDir).toList.mapM fun entry =>
          lookBelow depth (place ++ [utf8 entry.fileName])
        return (place, n) :: below.flatten
      else return [(place, n)]

/-- Look at every place on the way from the root to `place`. -/
def lookAlong (place : RealPath) : IO (List (RealPath × Node)) := do
  let ways := (List.range (place.length + 1)).map place.take
  let nodes ← ways.mapM fun way => return (way, ← lookAt way)
  return nodes.filterMap fun (way, n) => n.map fun n => (way, n)

/-- The names of the place that a path of the disk leads to, or would if it existed. -/
def realNames (names : RealPath) : IO RealPath := do
  try return (Path.ofString (← IO.FS.realPath names.toPath.display).toString).normalNames
  catch _ => return names

/-- The file system as far as a command line is about it. -/
def lookFor (a : PackArguments) : IO FileSystem := do
  let empty := FileSystem.blank [] (Path.ofString (← IO.currentDir).toString).normalNames .here
  let namesOf (p : Path) : RealPath := (empty.absolute p).normalNames
  let source ← realNames (namesOf a.embeddedDir)
  let named := (a.embeddedDir :: a.output :: a.ignoreFile.toList).map namesOf
  let ways ← (empty.cwd :: source :: named).mapM lookAlong
  let outside := ways.flatten.filter fun (place, _) => !source.isPrefixOf place
  return { empty with nodes := outside.eraseDups ++ (← lookBelow depthLimit source) }

/-! ## Acting -/

/-- Put the files on the disk that are in `after` and were not so in `before`. Each appears at once. -/
def putFiles (before after : FileSystem) : IO Unit := do
  for (place, n) in after.nodes do
    if before.get? place ≠ some n then
      let path := place.toPath.display
      let beside := path ++ ".part"
      IO.FS.writeBinFile beside n.content.toByteArray
      IO.FS.rename beside path

end TreeImage

open TreeImage in
/-- Run the packer with its arguments. -/
def main (arguments : List String) : IO UInt32 := do
  let arguments := arguments.map utf8
  let before ← match PackArguments.parse arguments with
    | .ok a => lookFor a
    | .error _ => pure (.blank [] [] .here)
  let (result, after) := packCommand arguments before
  putFiles before after
  IO.print result.output
  return result.exitCode.toUInt32
