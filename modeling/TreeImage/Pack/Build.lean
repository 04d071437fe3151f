import TreeImage.FileSystem.Access
import TreeImage.Pack.Basic

set_option autoImplicit false

/-! # Packing as a step of a build

The image goes into an output directory, and the build is told on which paths it depends. -/

namespace TreeImage

/-- Pack `source` into a file of `outputDirectory`: the path of the image, and the paths it was made
    from. -/
def packInto (options : PackOptions) (source outputDirectory : Path) (fileName : String)
    (fs : FileSystem) : Except PackError (Path × List Path) × FileSystem :=
  match pack fs options source with
  | .error e => (.error e, fs)
  | .ok packed =>
    let output := outputDirectory.join (.ofString fileName)
    let (written, fs) := fs.perform (packed.writeTo output)
    (written.map fun () => (output, packed.sources), fs)

/-- The line that makes a build depend on a path. -/
def dependencyLine (p : Path) : String := s!"cargo:rerun-if-changed={p}"

/-- Pack `source` into the output directory of a build, if one is set: what is printed, and the path of
    the image. -/
def embedDirectory (options : PackOptions) (source : Path) (fileName : String)
    (outputDirectory : Option Path) (fs : FileSystem) :
    List String × Except PackError Path × FileSystem :=
  match outputDirectory with
  | none => ([], .error .missingOutputDirectory, fs)
  | some directory =>
    match packInto options source directory fileName fs with
    | (.error e, fs) => ([], .error e, fs)
    | (.ok (output, sources), fs) => (sources.map dependencyLine, .ok output, fs)

end TreeImage
