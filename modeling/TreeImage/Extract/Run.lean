import TreeImage.Extract.Destination
import TreeImage.Extract.Passes
import TreeImage.Extract.Select
import TreeImage.Program.Workers

set_option autoImplicit false

/-! # Extraction

`extract` brings the selected entries of an image below a target root. A run that cannot start, meets an
unsafe path under the strict policy, or is cancelled before it starts is fatal; any other failure is
recorded in the report. Files are written by a pool of workers whose calls interleave along a schedule;
with one worker the schedule makes no difference. -/

namespace TreeImage

/-! ## Before the passes -/

/-- A slot for every selected entry. An unsafe path ends a strict run here, before anything is touched. -/
def slotsFor (root : Path) (strict : Bool) : List Entry → Except ExtractError (List Slot)
  | [] => .ok []
  | e :: rest =>
    match sanitize root e.path with
    | .ok destination => (slotsFor root strict rest).map ({ entry := e, destination := some destination } :: ·)
    | .error err =>
      if strict then .error err
      else (slotsFor root strict rest).map
        ({ entry := e, destination := none, outcome := some (.ofError err) } :: ·)

/-- Make sure that the target root is a directory; its real path. -/
def prepareRoot (root : Path) : Program Files (Except ExtractError Path) := do
  let refuse (e : Refusal) : ExtractError := .target root e
  let settle : Program Files (Except ExtractError Path) := do
    return (← Files.realPath root).mapError refuse
  match ← Files.inspect root with
  | .ok info =>
    if info.isDirectory then settle else return .error (.targetNotDirectory root)
  | .error .notFound =>
    match ← makeDirectories root.normalNames with
    | .error e => return .error (refuse e)
    | .ok () => settle
  | .error e => return .error (refuse e)

/-- What the passes need to know about a run. -/
def planFor (options : ExtractOptions) (root realRoot : Path) (slots : List Slot) : RunPlan where
  root := root
  realRoot := realRoot
  options := options
  rejected := (slots.filter (·.outcome.isSome)).length
  entriesTotal := slots.length
  bytesTotal := Entry.totalBytes ((slots.map (·.entry)).filter (·.isFile))

/-- Everything up to the first pass: the plan and the slots. -/
def prepare (options : ExtractOptions) (cwd executable : Path) (image : Image)
    (target : Option Path) : Program Session (Except ExtractError (RunPlan × List Slot)) := do
  if ← Session.isCancelled then return .error .cancelled
  match resolveRoot cwd executable options.defaultRoot target with
  | .error e => return .error e
  | .ok root =>
    match slotsFor root options.strict (image.manifest.select options.filter) with
    | .error e => return .error e
    | .ok slots =>
      match ← Session.onFiles (prepareRoot root) with
      | .error e => return .error e
      | .ok realRoot => return .ok (planFor options root realRoot slots, slots)

/-! ## The run -/

namespace RunPlan

/-- The passes over directories, up to the files that are pending. -/
def directories (plan : RunPlan) (slots : List Slot) :
    Program Session (Except ExtractError (List Slot)) := do
  match ← plan.directoryPass [] slots with
  | .error e => return .error e
  | .ok (failures, slots) => return .ok (← plan.blockFiles failures slots)

/-- Write the pending files on the pool. -/
def files (plan : RunPlan) (schedule : List Nat) (image : Image) (pending : List Slot) (s : RunState) :
    List (Option Outcome) × RunState :=
  runBounded (RunState.handler plan.options) schedule pending.length plan.options.workers
    Session.isHalted (plan.fileJob image pending) s

/-- Finish the directories and write the report. -/
def conclude (plan : RunPlan) (slots : List Slot) (bytesWritten : Nat) : Program Session Report := do
  let slots ← finishDirectories slots
  let cancelled ← Session.isCancelled
  return .new plan.root (slots.map (·.report)) bytesWritten cancelled

/-- The passes of a run, from the slots to the report. -/
def execute (plan : RunPlan) (schedule : List Nat) (image : Image) (slots : List Slot)
    (s : RunState) : Except ExtractError Report × RunState :=
  match (plan.directories slots).run (RunState.handler plan.options) s with
  | (.error e, s) => (.error e, s)
  | (.ok slots, s) =>
    let pending := slots.filter (·.isPending)
    let (results, s) := plan.files schedule image pending s
    match s.fatal with
    | some cause => (.error (.aborted cause (committedPaths pending results)), s)
    | none =>
      let (report, s) := (plan.conclude (assignResults slots results) s.bytesWritten).run
        (RunState.handler plan.options) s
      (.ok report, s)

end RunPlan

/-- Extract an image below a target, or below the default root of the options. -/
def extract (options : ExtractOptions) (schedule : List Nat) (image : Image) (target : Option Path)
    (s : RunState) : Except ExtractError Report × RunState :=
  let preparation := prepare options s.fs.cwd.toPath s.fs.executable image target
  match preparation.run (RunState.handler options) s with
  | (.error e, s) => (.error e, s)
  | (.ok (plan, slots), s) => plan.execute schedule image slots s

/-- Read an image and extract it. -/
def extractBytes (options : ExtractOptions) (schedule : List Nat) (bytes : Bytes)
    (target : Option Path) (s : RunState) : Except ExtractError Report × RunState :=
  match Image.parse bytes with
  | .error e => (.error (.format e), s)
  | .ok image => extract options schedule image target s

end TreeImage
