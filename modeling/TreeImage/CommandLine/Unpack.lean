import TreeImage.CommandLine.Arguments
import TreeImage.Extract.Run
import TreeImage.Json.Report

set_option autoImplicit false

/-! # The command that extracts an image

`UnpackArguments` is what its command line says, and `UnpackArguments.run` what it does: list the entries
of an image, or extract it and print the report. -/

namespace TreeImage

/-! ## Arguments -/

/-- The options and operands of the command. -/
inductive UnpackKey
  | target
  | force
  | update
  | currentDir
  | jobs
  | lenient
  | stopOnError
  | list
  | json
  | verbose
  | help
  | version
  deriving DecidableEq, Repr

/-- What the command accepts. -/
def unpackSpec : CommandSpec UnpackKey where
  options :=
    [⟨.force, none, "force", .flag⟩, ⟨.update, none, "update", .flag⟩,
     ⟨.currentDir, none, "current-dir", .flag⟩, ⟨.jobs, some 'j', "jobs", .value⟩,
     ⟨.lenient, none, "lenient", .flag⟩, ⟨.stopOnError, none, "stop-on-error", .flag⟩,
     ⟨.list, some 'l', "list", .flag⟩, ⟨.json, none, "json", .flag⟩,
     ⟨.verbose, some 'v', "verbose", .flag⟩, ⟨.help, some 'h', "help", .help⟩,
     ⟨.version, some 'V', "version", .version⟩]
  operands := [.target]
  check
    | .target, value => checkPath value
    | .jobs, value => checkNumber value
    | _, _ => none

/-- What the command line of the command says. -/
structure UnpackArguments where
  target : Option Path := none
  force : Bool := false
  update : Bool := false
  currentDir : Bool := false
  jobs : Option Nat := none
  lenient : Bool := false
  stopOnError : Bool := false
  list : Bool := false
  json : Bool := false
  verbose : Bool := false
  deriving DecidableEq, Repr

namespace UnpackArguments

/-- Read a command line. Replacing every file and replacing what changed exclude each other. -/
def parse (arguments : List Bytes) : Except UsageError UnpackArguments := do
  let r ← unpackSpec.read arguments
  if r.has .force && r.has .update then .error .argumentConflict
  else return {
      target := (r.value? .target).map Path.mk
      force := r.has .force
      update := r.has .update
      currentDir := r.has .currentDir
      jobs := (r.value? .jobs).bind readNumber?
      lenient := r.has .lenient
      stopOnError := r.has .stopOnError
      list := r.has .list
      json := r.has .json
      verbose := r.has .verbose
    }

/-- The overwrite policy that is asked for. -/
def policy (a : UnpackArguments) : OverwritePolicy :=
  if a.force then .forceOverwrite
  else if a.update then .overwriteIfChanged
  else .skipExisting

/-- The options that are asked for. -/
def options (a : UnpackArguments) : ExtractOptions where
  overwrite := a.policy
  strict := !a.lenient
  stopOnFirstError := a.stopOnError
  workers := match a.jobs with
    | some n => max n 1
    | none => maxDefaultWorkers
  defaultRoot := if a.currentDir then .currentDirectory else .executableDirectory

/-! ## Output -/

/-- Every entry as JSON. -/
def listingJson (image : Image) : String :=
  Json.pretty (.array (image.manifest.entries.map (·.listingJson))) ++ "\n"

/-- Every entry on a line of its own, directories first, and the totals. -/
def listingText (image : Image) : String :=
  let m := image.manifest
  String.join (m.directories.map fun e => s!"{e.path}/\n") ++
    String.join (m.files.map fun e => s!"{e.path}  {e.size.toNat} bytes\n") ++
    s!"{m.size} entries, {m.totalSize} bytes\n"

/-- What is printed about a run. A fatal error in plain text is left to the log. -/
def resultText (a : UnpackArguments) (result : Except ExtractError Report) : String :=
  if a.json then (resultJson result).pretty ++ "\n"
  else match result with
    | .ok report => report.summary ++ "\n"
    | .error _ => ""

/-- Run the command on an image: the status, what is printed, and the file system afterwards. -/
def run (a : UnpackArguments) (image : Image) (fs : FileSystem) : Status × String × FileSystem :=
  if a.list then
    (.success, if a.json then listingJson image else listingText image, fs)
  else
    let options := a.options
    let (result, s) := extract options [] image a.target (.start fs options)
    (.ofResult result, a.resultText result, s.fs)

end UnpackArguments

end TreeImage
