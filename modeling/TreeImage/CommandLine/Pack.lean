import TreeImage.CommandLine.Arguments
import TreeImage.Pack.Build

set_option autoImplicit false

/-! # The command that packs a directory

`PackArguments` is what its command line says, and `PackArguments.run` what it does: pack the directory,
name the files, and write the image. -/

namespace TreeImage

/-! ## Arguments -/

/-- The options of the command. -/
inductive PackKey
  | embeddedDir
  | ignoreFile
  | outputDir
  | name
  | maxSize
  | verbose
  | help
  | version
  deriving DecidableEq, Repr

/-- What the command accepts. -/
def packSpec : CommandSpec PackKey where
  options :=
    [⟨.embeddedDir, some 'e', "embedded-dir", .value⟩, ⟨.ignoreFile, some 'i', "ignorefile", .value⟩,
     ⟨.outputDir, some 'o', "output-dir", .value⟩, ⟨.name, none, "name", .value⟩,
     ⟨.maxSize, none, "max-size", .value⟩, ⟨.verbose, some 'v', "verbose", .flag⟩,
     ⟨.help, some 'h', "help", .help⟩, ⟨.version, some 'V', "version", .version⟩]
  operands := []
  check
    | .embeddedDir, value => checkPath value
    | .ignoreFile, value => checkPath value
    | .outputDir, value => checkPath value
    | .name, value => checkText value
    | .maxSize, value => checkNumber value
    | _, _ => none

/-- What the command line of the command says. -/
structure PackArguments where
  embeddedDir : Path
  ignoreFile : Option Path := none
  outputDir : Path := .here
  name : String := "embedded.img"
  maxSize : Nat := defaultMaxTotalSize
  verbose : Bool := false
  deriving DecidableEq, Repr

/-- What a command did: its exit code and what it printed. -/
structure CommandResult where
  exitCode : Nat
  output : String
  deriving DecidableEq, Repr

namespace PackArguments

/-- Read a command line. -/
def parse (arguments : List Bytes) : Except UsageError PackArguments := do
  let r ← packSpec.read arguments
  match r.value? .embeddedDir with
  | none => .error .missingRequired
  | some directory => return {
      embeddedDir := ⟨directory⟩
      ignoreFile := (r.value? .ignoreFile).map Path.mk
      outputDir := ((r.value? .outputDir).map Path.mk).getD .here
      name := ((r.value? .name).bind text?).getD "embedded.img"
      maxSize := ((r.value? .maxSize).bind readNumber?).getD defaultMaxTotalSize
      verbose := r.has .verbose
    }

/-- The options that are asked for. -/
def options (a : PackArguments) : PackOptions :=
  { maxTotalSize := a.maxSize, ignoreFile := a.ignoreFile }

/-- The path of the image. -/
def output (a : PackArguments) : Path := a.outputDir.join (.ofString a.name)

/-- The names of the packed files. -/
def fileList (packed : PackedImage) : String :=
  "Files to embed:\n" ++ String.join (packed.manifest.files.map fun e => s!"  {e.path}\n")

/-- The line about the written image. -/
def writtenLine (a : PackArguments) (packed : PackedImage) : String :=
  s!"{packed.manifest.size} entries, {packed.blob.length} bytes -> {a.output}\n"

/-- Run the command. -/
def run (a : PackArguments) (fs : FileSystem) : CommandResult × FileSystem :=
  match pack fs a.options a.embeddedDir with
  | .error _ => (⟨1, ""⟩, fs)
  | .ok packed =>
    match fs.perform (packed.writeTo a.output) with
    | (.error _, fs) => (⟨1, fileList packed⟩, fs)
    | (.ok (), fs) => (⟨0, fileList packed ++ a.writtenLine packed⟩, fs)

end PackArguments

/-- Run the command with its arguments. Wrong usage is told elsewhere and prints nothing here. -/
def packCommand (arguments : List Bytes) (fs : FileSystem) : CommandResult × FileSystem :=
  match PackArguments.parse arguments with
  | .error .version => (⟨0, "embedtree-pack 0.1.0\n"⟩, fs)
  | .error .help => (⟨0, ""⟩, fs)
  | .error _ => (⟨2, ""⟩, fs)
  | .ok a => a.run fs

end TreeImage
