import TreeImage.Extract.Error
import TreeImage.Extract.Options
import TreeImage.FileSystem.Access

set_option autoImplicit false

/-! # What a run shares

The parts of a run work on one `RunState`: the file system, the cancel token, a stop flag, two counters
and the first fatal error. They reach it through the interface `Session`, one atomic step a call, so that
several workers can share it. What was asked of the file system and what the caller was told is kept as a
trace. -/

namespace TreeImage

/-! ## The state -/

/-- What shows of a run: a call and the file system that it met, or progress that the caller was told. -/
inductive Event
  | call (c : FileCall) (fs : FileSystem)
  | told (p : Progress)
  deriving DecidableEq

/-- The progress that an event tells of. -/
def Event.progress? : Event → Option Progress
  | call _ _ => none
  | told p => some p

/-- What the parts of a run share. -/
structure RunState where
  fs : FileSystem
  cancelled : Bool := false
  looks : Nat := 0
  stopped : Bool := false
  entriesDone : Nat := 0
  bytesWritten : Nat := 0
  fatal : Option ExtractError := none
  trace : List Event := []

/-- The state at the start of a run. -/
def RunState.start (fs : FileSystem) (options : ExtractOptions) : RunState where
  fs := fs
  cancelled := options.cancelToken.any (·.cancelled)

/-- The progress that the caller was told of, in order. -/
def RunState.announced (s : RunState) : List Progress := s.trace.filterMap (·.progress?)

/-! ## The calls -/

/-- What the parts of a run can ask for. -/
inductive SessionCall
  | file (c : FileCall)
  | isCancelled
  | isStopped
  | stop
  | countEntry
  | countBytes (n : Nat)
  | announce (p : Progress)
  | raise (e : ExtractError)

/-- What comes back. -/
def SessionCall.Reply : SessionCall → Type
  | .file c => FileCall.Reply c
  | .isCancelled => Bool
  | .isStopped => Bool
  | .stop => Unit
  | .countEntry => Nat
  | .countBytes _ => Nat
  | .announce _ => Unit
  | .raise _ => Unit

/-- The interface of a run. -/
def Session : Interface := ⟨SessionCall, SessionCall.Reply⟩

namespace RunState

/-! ## The answers -/

/-- Look at the cancel token. Once it was found set it stays set. -/
def lookAtToken (s : RunState) : Option CancelToken → Bool × RunState
  | none => (false, s)
  | some token =>
    let cancelled := s.cancelled || token.setBy s.looks
    (cancelled, { s with cancelled := cancelled, looks := s.looks + 1 })

/-- Tell the caller about progress. What it does to the file system happens before it returns. -/
def tell (s : RunState) (p : Progress) : Option ProgressListener → RunState
  | none => s
  | some listener =>
    let (fs, cancel) := listener p s.fs
    { s with fs := fs, cancelled := s.cancelled || cancel, trace := s.trace ++ [.told p] }

/-- Keep the first error that is raised. -/
def keepFirst (s : RunState) (e : ExtractError) : RunState :=
  { s with fatal := some (s.fatal.getD e) }

/-- Answer one call of a run with these options. -/
def answer (options : ExtractOptions) : (c : SessionCall) → RunState → SessionCall.Reply c × RunState
  | .file c, s =>
    let (reply, fs) := s.fs.answer c
    (reply, { s with fs := fs, trace := s.trace ++ [.call c s.fs] })
  | .isCancelled, s => s.lookAtToken options.cancelToken
  | .isStopped, s => (s.stopped, s)
  | .stop, s => ((), { s with stopped := true })
  | .countEntry, s => (s.entriesDone + 1, { s with entriesDone := s.entriesDone + 1 })
  | .countBytes n, s => (s.bytesWritten + n, { s with bytesWritten := s.bytesWritten + n })
  | .announce p, s => ((), s.tell p options.onProgress)
  | .raise e, s => ((), s.keepFirst e)

/-- The handler of a run with these options. -/
def handler (options : ExtractOptions) : Handler Session RunState := answer options

end RunState

/-! ## The calls as programs -/

namespace Session

variable {α : Type}

/-- Do something on the file system. -/
def onFiles (p : Program Files α) : Program Session α :=
  p.interpret fun c => .call (I := Session) (.file c) .done

/-- Whether the run was cancelled. -/
def isCancelled : Program Session Bool := .call (I := Session) .isCancelled .done

/-- Whether the run was told to stop. -/
def isStopped : Program Session Bool := .call (I := Session) .isStopped .done

/-- Tell the run to stop. -/
def stop : Program Session Unit := .call (I := Session) .stop .done

/-- Count one more entry as done; the count with it. -/
def countEntry : Program Session Nat := .call (I := Session) .countEntry .done

/-- Count more bytes as written; the count with them. -/
def countBytes (n : Nat) : Program Session Nat := .call (I := Session) (.countBytes n) .done

/-- Tell the caller about progress. -/
def announce (p : Progress) : Program Session Unit := .call (I := Session) (.announce p) .done

/-- Make the run fatal. -/
def raise (e : ExtractError) : Program Session Unit := .call (I := Session) (.raise e) .done

/-- Whether no new entry is to be started. -/
def isHalted : Program Session Bool := do
  if ← isStopped then return true else isCancelled

end Session

end TreeImage
