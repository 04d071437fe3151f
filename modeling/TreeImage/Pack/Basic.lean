import TreeImage.FileSystem.Staged
import TreeImage.Image.Encode
import TreeImage.Pack.Walk

set_option autoImplicit false

/-! # Packing

`pack` turns a directory into a manifest and a blob. The same tree always gives the same image: entries
are in canonical order, and the blob holds their content in that order without gaps. -/

namespace TreeImage

/-- A manifest and a blob ready to be written, and the paths they were made from. -/
structure PackedImage where
  manifest : Manifest
  blob : Bytes
  sources : List Path
  deriving DecidableEq

namespace PackedImage

/-- The image. -/
def encode (p : PackedImage) : Except PackError Bytes :=
  (p.manifest.encode p.blob).mapError .format

/-- Write the image to a file, all at once. -/
def writeTo (p : PackedImage) (output : Path) : Program Files (Except PackError Unit) :=
  match p.encode with
  | .error e => return .error e
  | .ok bytes => return (← atomicWrite output bytes {}).mapError .fs

end PackedImage

/-! ## Content -/

/-- Read the content of the found entries in order. `offset` bytes were read before; the result has the
    entries of the manifest and the content of each file. -/
def readEntries (fs : FileSystem) (limit : Nat) :
    Nat → List SourceEntry → Except PackError (List (Entry × Bytes))
  | _, [] => .ok []
  | offset, item :: rest =>
    match item.kind with
    | .directory =>
      (readEntries fs limit offset rest).map ((Entry.directory item.path item.mode, []) :: ·)
    | .file =>
      match fs.read item.source with
      | .error e => .error (.read item.source e)
      | .ok content =>
        let total := offset + content.length
        if limit < total then .error (.sizeLimit total limit)
        else
          let e := Entry.file item.path offset.toUInt64 content.length.toUInt64 (.of content) item.mode
          (readEntries fs limit total rest).map ((e, content) :: ·)

/-! ## The ignore file -/

/-- The ignore rules in use, and the real path of the file they are from. -/
def loadRules (fs : FileSystem) (root : Path) (options : PackOptions) :
    Except PackError (IgnoreRules × Option Path) :=
  let file := options.ignoreFile.getD (root.push defaultIgnoreName)
  match IgnoreRules.load fs file with
  | .error e => .error e
  | .ok none => .ok (.empty, none)
  | .ok (some rules) =>
    match fs.realPath file with
    | .error e => .error (.read file e)
    | .ok real => .ok (rules, some real)

/-! ## The run -/

/-- Pack everything below the real path `root`. -/
def packRoot (fs : FileSystem) (options : PackOptions) (root : Path) : Except PackError PackedImage :=
  match loadRules fs root options with
  | .error e => .error e
  | .ok (rules, ignoreSource) =>
    match WalkPlan.walk ⟨fs, rules, ignoreSource, options⟩ root with
    | .error e => .error e
    | .ok found =>
      match readEntries fs options.maxTotalSize 0 found with
      | .error e => .error e
      | .ok read =>
        let manifest : Manifest := ⟨read.map (·.1)⟩
        let blob := read.flatMap (·.2)
        match manifest.validate blob.length with
        | .error e => .error (.format e)
        | .ok () => .ok ⟨manifest, blob, root :: ignoreSource.toList ++ found.map (·.source)⟩

/-- Pack the directory at `source`. -/
def pack (fs : FileSystem) (options : PackOptions) (source : Path) : Except PackError PackedImage :=
  match fs.realPath source with
  | .error e => .error (.read source e)
  | .ok root => if fs.isDirectory root then packRoot fs options root else .error (.notADirectory root)

end TreeImage
