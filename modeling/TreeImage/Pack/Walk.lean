import TreeImage.Ignore.Rules
import TreeImage.Pack.Options

set_option autoImplicit false

/-! # What there is to pack

`walk` collects every entry below a source root that the ignore rules keep. Excluded directories are not
entered, and symbolic links are never followed. -/

namespace TreeImage

/-- An entry of a source tree, before its content is read. -/
structure SourceEntry where
  path : String
  source : Path
  kind : EntryKind
  mode : Option UInt32
  deriving DecidableEq, Repr

/-- Canonical order of entries, as in manifests. -/
def SourceEntry.order (a b : SourceEntry) : Ordering :=
  (compare a.kind b.kind).then (compare (utf8 a.path) (utf8 b.path))

/-- A directory on the way: its path, and its path inside the tree if it is not the root. -/
structure SourceDirectory where
  source : Path
  path : Option String
  deriving DecidableEq, Repr

/-- The path inside the tree of the entry called `name` in a directory. The name must be a text without a
    backslash. -/
def SourceDirectory.entryPath (d : SourceDirectory) (name : Name) : Except PackError String :=
  match text? name with
  | none => .error (.nonUtf8 (d.source.push name))
  | some s =>
    if s.toList.contains '\\' then .error (.backslash (d.source.push name))
    else match d.path with
      | none => .ok s
      | some path => .ok (path ++ "/" ++ s)

/-- What all steps of a walk know. `skip` is a path to leave out, that of the ignore file. -/
structure WalkPlan where
  fs : FileSystem
  rules : IgnoreRules
  skip : Option Path
  options : PackOptions

/-- What a walk has found so far: entries, newest first, directories still to be entered, the latest
    first, and the sum of the file sizes. -/
structure WalkState where
  entries : List SourceEntry := []
  pending : List SourceDirectory := []
  declared : Nat := 0
  deriving DecidableEq, Repr

namespace WalkPlan

/-- The mode to record. -/
def recordedMode (plan : WalkPlan) (info : NodeInfo) : Option UInt32 :=
  if plan.options.preservePermissions then some info.mode else none

/-- Take in an entry that is kept. -/
def keep (plan : WalkPlan) (s : WalkState) (source : Path) (path : String) (info : NodeInfo) :
    Except PackError WalkState :=
  match info.kind with
  | .directory => .ok
      { s with
        entries := ⟨path, source, .directory, plan.recordedMode info⟩ :: s.entries
        pending := ⟨source, some path⟩ :: s.pending }
  | .file =>
    let declared := s.declared + info.size
    if plan.options.maxTotalSize < declared then
      .error (.sizeLimit declared plan.options.maxTotalSize)
    else .ok
      { s with
        entries := ⟨path, source, .file, plan.recordedMode info⟩ :: s.entries
        declared := declared }
  | _ => .error (.unsupportedFileType source)

/-- Deal with the entry called `name` in a directory. -/
def visit (plan : WalkPlan) (d : SourceDirectory) (s : WalkState) (name : Name) :
    Except PackError WalkState :=
  let source := d.source.push name
  if plan.skip.any (·.sameAs source) then .ok s
  else match plan.fs.inspect false source with
    | .error e => .error (.read source e)
    | .ok info =>
      if info.kind = .symlink then
        match plan.options.symlinks with
        | .reject => .error (.symlink source)
        | .skip => .ok s
      else match d.entryPath name with
        | .error e => .error e
        | .ok path =>
          if plan.rules.isIgnored path info.isDirectory then .ok s
          else if maxPathLength < (utf8 path).length then
            .error (.pathTooLong path (utf8 path).length)
          else plan.keep s source path info

/-- Deal with the entries of a directory, in the order of their names. -/
def visitAll (plan : WalkPlan) (d : SourceDirectory) :
    List Name → WalkState → Except PackError WalkState
  | [], s => .ok s
  | name :: rest, s =>
    match plan.visit d s name with
    | .error e => .error e
    | .ok s => plan.visitAll d rest s

/-- Enter pending directories, the latest first, at most `fuel` of them. -/
def enter (plan : WalkPlan) : Nat → WalkState → Except PackError WalkState
  | 0, s => .ok s
  | fuel + 1, s =>
    match s.pending with
    | [] => .ok s
    | d :: rest =>
      match plan.fs.list d.source with
      | .error e => .error (.read d.source e)
      | .ok names =>
        let sorted := names.mergeSort fun a b => a ≤ b
        match plan.visitAll d sorted { s with pending := rest } with
        | .error e => .error e
        | .ok s => plan.enter fuel s

/-- Every entry below `root` that is kept, in canonical order. No directory is entered twice, so there
    are no more to enter than nodes. -/
def walk (plan : WalkPlan) (root : Path) : Except PackError (List SourceEntry) :=
  let start : WalkState := { pending := [⟨root, none⟩] }
  (plan.enter (plan.fs.nodes.length + 1) start).map fun s =>
    s.entries.reverse.mergeSort fun a b => a.order b != .gt

end WalkPlan

end TreeImage
