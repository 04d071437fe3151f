import TreeImage.FileSystem.Basic
import TreeImage.Manifest.Basic

set_option autoImplicit false

/-! # How to extract

The options of a run, and what its caller is told while it goes on. -/

namespace TreeImage

/-! ## Choices -/

/-- What to do with a file that exists already. -/
inductive OverwritePolicy
  | skipExisting
  | overwriteIfChanged
  | forceOverwrite
  deriving DecidableEq, Repr, Inhabited

/-- Where to extract when no target is given. -/
inductive DefaultRoot
  | executableDirectory
  | currentDirectory
  deriving DecidableEq, Repr, Inhabited

/-- A signal that stops a run between entries. It may be set before the run, and someone else may have
    set it by the time of the `n`-th look at it. -/
structure CancelToken where
  cancelled : Bool
  setBy : Nat → Bool := fun _ => false

/-! ## Progress -/

/-- What a caller is told when an entry is dealt with. -/
structure Progress where
  entriesDone : Nat
  entriesTotal : Nat
  bytesWritten : Nat
  bytesTotal : Nat
  current : String
  deriving DecidableEq, Repr

/-- The share of all bytes that is written, in percent; none if there are no bytes to write. -/
def Progress.percentage (p : Progress) : Option Float32 :=
  if p.bytesTotal = 0 then none
  else some ((p.bytesWritten.toUInt64.toFloat32 / p.bytesTotal.toUInt64.toFloat32) * 100)

/-- What a caller does on progress: the file system it leaves, and whether it cancels the run. -/
abbrev ProgressListener := Progress → FileSystem → FileSystem × Bool

/-! ## Options -/

/-- The largest number of workers that is chosen without being asked for. -/
def maxDefaultWorkers : Nat := 8

/-- The options of a run. -/
structure ExtractOptions where
  overwrite : OverwritePolicy := .skipExisting
  filter : Option (Entry → Bool) := none
  strict : Bool := true
  stopOnFirstError : Bool := false
  workers : Nat := maxDefaultWorkers
  defaultRoot : DefaultRoot := .executableDirectory
  sync : Bool := false
  onProgress : Option ProgressListener := none
  cancelToken : Option CancelToken := none

namespace ExtractOptions

/-- Write files with `n` workers, and with one if `n` is zero. -/
def withWorkers (o : ExtractOptions) (n : Nat) : ExtractOptions := { o with workers := max n 1 }

/-- Whether the filter lets an entry through. -/
def accepts (o : ExtractOptions) (e : Entry) : Bool := o.filter.all (· e)

/-- The name of a policy as options show it. -/
def policyName : OverwritePolicy → String
  | .skipExisting => "SkipExisting"
  | .overwriteIfChanged => "OverwriteIfChanged"
  | .forceOverwrite => "ForceOverwrite"

/-- The name of a default root as options show it. -/
def rootName : DefaultRoot → String
  | .executableDirectory => "ExecutableDir"
  | .currentDirectory => "CurrentDir"

/-- The text that stands for a token in shown options. -/
def tokenText : Option CancelToken → String
  | none => "None"
  | some t => s!"Some(CancellationToken({t.cancelled}))"

/-- All options on one line. -/
def describe (o : ExtractOptions) : String :=
  "ExtractOptions \x7b overwrite: " ++ policyName o.overwrite ++
    ", filter: " ++ toString o.filter.isSome ++
    ", strict: " ++ toString o.strict ++
    ", stop_on_first_error: " ++ toString o.stopOnFirstError ++
    ", workers: " ++ toString o.workers ++
    ", default_root: " ++ rootName o.defaultRoot ++
    ", sync: " ++ toString o.sync ++
    ", on_progress: " ++ toString o.onProgress.isSome ++
    ", cancel_token: " ++ tokenText o.cancelToken ++ " \x7d"

end ExtractOptions

end TreeImage
