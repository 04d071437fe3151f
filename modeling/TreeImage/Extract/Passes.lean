import TreeImage.Extract.Session
import TreeImage.Extract.Write
import TreeImage.Image.Basic

set_option autoImplicit false

/-! # The passes of a run

Every selected entry has a `Slot`, which takes its outcome. Directories come first, in order; nothing is
made below one that failed. Files follow, each a job of its own. The modes of directories come last, so
that a read-only directory can be filled, and children before their parents. -/

namespace TreeImage

/-- A selected entry: where it goes, what happened to it so far, and whether it is a directory that this
    run made. -/
structure Slot where
  entry : Entry
  destination : Option Path
  outcome : Option Outcome := none
  made : Bool := false
  deriving DecidableEq

namespace Slot

/-- Whether this is a file that still has to be dealt with. -/
def isPending (s : Slot) : Bool := s.entry.isFile && s.outcome.isNone && s.destination.isSome

/-- The report of a slot. Without an outcome the entry was not attempted. -/
def report (s : Slot) : EntryReport := ⟨s.entry.path, s.entry.kind, s.outcome.getD .notAttempted⟩

end Slot

/-- What all passes know: the real target root, the options, and the sizes that progress is measured
    against. `rejected` entries failed before the first pass. -/
structure RunPlan where
  root : Path
  realRoot : Path
  options : ExtractOptions
  rejected : Nat
  entriesTotal : Nat
  bytesTotal : Nat

namespace RunPlan

/-- Count an entry as done, with `written` bytes, and tell the caller. -/
def entryDone (plan : RunPlan) (path : String) (written : Nat) : Program Session Unit := do
  let done ← Session.countEntry
  let bytes ← Session.countBytes written
  Session.announce ⟨plan.rejected + done, plan.entriesTotal, bytes, plan.bytesTotal, path⟩

/-! ## Directories -/

/-- Directories that are of no use, with the kind of their failure. -/
abbrev Failures := List (String × ErrorKind)

/-- The failure that an entry takes over from its parent directory. -/
def blocked? (failures : Failures) (e : Entry) : Option Outcome :=
  match e.parent? with
  | none => none
  | some parent =>
    (failures.lookup parent).map fun kind =>
      .failed kind s!"parent directory '{parent}' could not be created"

/-- The failures with that of one more directory, if it failed. -/
def Failures.note (failures : Failures) (e : Entry) : Outcome → Failures
  | .failed kind _ => (e.path, kind) :: failures
  | _ => failures

/-- Bring one directory entry to its destination: its outcome, and whether it was made. A path error
    ends a strict run. -/
def tryDirectory (plan : RunPlan) (destination : Path) (e : Entry) :
    Program Session (Except ExtractError (Outcome × Bool)) := do
  match ← Session.onFiles (createDirectory plan.realRoot destination e.path) with
  | .ok .created => return .ok (.created, true)
  | .ok .existing => return .ok (.skippedUnchanged, false)
  | .error err =>
    if err.isPathError && plan.options.strict then return .error err
    else
      if plan.options.stopOnFirstError then Session.stop
      return .ok (.ofError err, false)

/-- Deal with one directory entry, unless its parent failed. -/
def placeDirectory (plan : RunPlan) (failures : Failures) (destination : Path) (e : Entry) :
    Program Session (Except ExtractError (Outcome × Bool)) := do
  match blocked? failures e with
  | some outcome => return .ok (outcome, false)
  | none => plan.tryDirectory destination e

/-- Deal with the directories among the slots, in order. Once the run is halted the rest stays as it is. -/
def directoryPass (plan : RunPlan) :
    Failures → List Slot → Program Session (Except ExtractError (Failures × List Slot))
  | failures, [] => return .ok (failures, [])
  | failures, slot :: rest => do
    let keep (failures : Failures) (slot : Slot) := do
      return (← plan.directoryPass failures rest).map fun (failures, slots) =>
        (failures, slot :: slots)
    if slot.entry.isFile then keep failures slot
    else match slot.outcome, slot.destination with
      | some outcome, _ => keep (failures.note slot.entry outcome) slot
      | none, destination =>
        if ← Session.isHalted then return .ok (failures, slot :: rest)
        else match destination with
          | none => keep failures slot
          | some destination =>
            match ← plan.placeDirectory failures destination slot.entry with
            | .error e => return .error e
            | .ok (outcome, made) =>
              plan.entryDone slot.entry.path 0
              keep (failures.note slot.entry outcome)
                { slot with outcome := some outcome, made := made }

/-! ## Files -/

/-- Fail every undecided file whose parent directory failed. -/
def blockFiles (plan : RunPlan) (failures : Failures) : List Slot → Program Session (List Slot)
  | [] => return []
  | slot :: rest => do
    match if slot.entry.isFile && slot.outcome.isNone then blocked? failures slot.entry else none with
    | none => return slot :: (← plan.blockFiles failures rest)
    | some outcome =>
      plan.entryDone slot.entry.path 0
      return { slot with outcome := some outcome } :: (← plan.blockFiles failures rest)

/-- The outcome of a file that failed. A path error makes a strict run fatal, and any error stops a run
    that is to stop at the first. -/
def fileFailed (plan : RunPlan) (e : ExtractError) : Program Session Outcome := do
  if e.isPathError && plan.options.strict then
    Session.stop
    Session.raise e
  else if plan.options.stopOnFirstError then
    Session.stop
  return .ofError e

/-- Deal with one file entry. -/
def placeFile (plan : RunPlan) (image : Image) (destination : Path) (e : Entry) :
    Program Session Outcome := do
  let content := image.content e
  let outcome ←
    match ← Session.onFiles (writeFile plan.options plan.realRoot destination e content) with
    | .ok outcome => pure outcome
    | .error err => plan.fileFailed err
  plan.entryDone e.path (if outcome.isWritten then content.length else 0)
  return outcome

/-- The job of pending file number `i`. -/
def fileJob (plan : RunPlan) (image : Image) (pending : List Slot) (i : Nat) :
    Program Session Outcome :=
  match pending[i]? with
  | some ⟨e, some destination, _, _⟩ => plan.placeFile image destination e
  | _ => return .notAttempted

/-- Hand the results of the file pass out to the pending slots, in order. -/
def assignResults : List Slot → List (Option Outcome) → List Slot
  | [], _ => []
  | slot :: rest, results =>
    if slot.isPending then
      { slot with outcome := results.head?.join } :: assignResults rest results.tail
    else slot :: assignResults rest results

/-- The paths of the pending files that were put in place. -/
def committedPaths (pending : List Slot) (results : List (Option Outcome)) : List String :=
  ((pending.zip results).filter fun (_, outcome) => outcome.any (·.isWritten)).map
    fun (slot, _) => slot.entry.path

/-! ## Modes of directories -/

/-- Give a directory that this run made its recorded mode. If that fails, so did the entry. -/
def finishDirectory (slot : Slot) : Program Session Slot :=
  match slot.made, slot.entry.mode, slot.destination with
  | true, some mode, some destination => do
    match ← Session.onFiles (applyMode destination mode) with
    | .ok () => return slot
    | .error e => return { slot with outcome := some (.ofError (.fs e)) }
  | _, _, _ => return slot

/-- Finish the directories that this run made, the last one first. -/
def finishDirectories : List Slot → Program Session (List Slot)
  | [] => return []
  | slot :: rest => do
    let rest ← finishDirectories rest
    return (← finishDirectory slot) :: rest

end RunPlan

end TreeImage
