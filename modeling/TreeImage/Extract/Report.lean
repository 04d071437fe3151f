import TreeImage.Extract.Error
import TreeImage.Manifest.Entry

set_option autoImplicit false

/-! # Reports

A run that was not fatal ends in a `Report`: one outcome for each selected entry, how often each outcome
came up, and how many bytes were written. -/

namespace TreeImage

/-! ## Outcomes -/

/-- What happened to an entry. `diverged` is a file that differs from the image and was left in place. -/
inductive Outcome
  | created
  | skippedUnchanged
  | overwritten
  | diverged
  | failed (kind : ErrorKind) (message : String)
  | notAttempted
  deriving DecidableEq, Repr

namespace Outcome

/-- The outcome of an entry that failed for a cause. -/
def ofError (e : ExtractError) : Outcome := failed e.kind e.message

/-- Whether an entry is not in place because it failed or was not tried. -/
def isFailure : Outcome → Bool
  | failed _ _ => true
  | notAttempted => true
  | _ => false

/-- Whether the content of the entry was put in place. -/
def isWritten : Outcome → Bool
  | created => true
  | overwritten => true
  | _ => false

/-- The name of an outcome in reports. -/
def name : Outcome → String
  | created => "created"
  | skippedUnchanged => "skipped_unchanged"
  | overwritten => "overwritten"
  | diverged => "diverged"
  | failed _ _ => "failed"
  | notAttempted => "not_attempted"

end Outcome

/-- The outcome of one entry. -/
structure EntryReport where
  path : String
  kind : EntryKind
  outcome : Outcome
  deriving DecidableEq, Repr

/-! ## Counts -/

/-- How often each outcome came up. -/
structure Counts where
  created : Nat := 0
  skippedUnchanged : Nat := 0
  overwritten : Nat := 0
  diverged : Nat := 0
  failed : Nat := 0
  notAttempted : Nat := 0
  deriving DecidableEq, Repr, Inhabited

namespace Counts

/-- Count one more outcome. -/
def record (c : Counts) : Outcome → Counts
  | .created => { c with created := c.created + 1 }
  | .skippedUnchanged => { c with skippedUnchanged := c.skippedUnchanged + 1 }
  | .overwritten => { c with overwritten := c.overwritten + 1 }
  | .diverged => { c with diverged := c.diverged + 1 }
  | .failed _ _ => { c with failed := c.failed + 1 }
  | .notAttempted => { c with notAttempted := c.notAttempted + 1 }

/-- The number of outcomes counted. -/
def total (c : Counts) : Nat :=
  c.created + c.skippedUnchanged + c.overwritten + c.diverged + c.failed + c.notAttempted

theorem total_record (c : Counts) (o : Outcome) : (c.record o).total = c.total + 1 := by
  cases o <;> simp only [record, total] <;> omega

/-- The counts of a list of outcomes. -/
def ofOutcomes (os : List Outcome) : Counts := os.foldl record {}

theorem total_ofOutcomes (os : List Outcome) : (ofOutcomes os).total = os.length := by
  have h : ∀ c : Counts, (os.foldl record c).total = c.total + os.length := by
    induction os with
    | nil => simp
    | cons o os ih =>
      intro c
      rw [List.foldl_cons, ih, total_record, List.length_cons]
      omega
  simpa [ofOutcomes, total] using h {}

end Counts

/-! ## Reports -/

/-- How a run ended. -/
inductive Status
  | success
  | partialFailure
  | fatal
  deriving DecidableEq, Repr

namespace Status

/-- The name of a status in reports. -/
def name : Status → String
  | success => "success"
  | partialFailure => "partial_failure"
  | fatal => "fatal"

/-- The exit code of a program whose run ended like this. -/
def exitCode : Status → Nat
  | success => 0
  | partialFailure => 1
  | fatal => 2

end Status

/-- The result of a run that was not fatal; `entries` are in manifest order. -/
structure Report where
  target : Path
  entries : List EntryReport
  counts : Counts
  bytesWritten : Nat
  cancelled : Bool
  deriving DecidableEq, Repr

namespace Report

/-- The report of a run, with its entries counted. -/
def new (target : Path) (entries : List EntryReport) (bytesWritten : Nat) (cancelled : Bool) : Report :=
  ⟨target, entries, .ofOutcomes (entries.map (·.outcome)), bytesWritten, cancelled⟩

/-- A run succeeded if no entry failed and none was left out. -/
def status (r : Report) : Status :=
  if 0 < r.counts.failed ∨ 0 < r.counts.notAttempted then .partialFailure else .success

/-- The report of the first entry with this path. -/
def get? (r : Report) (path : String) : Option EntryReport := r.entries.find? (·.path == path)

/-- The outcome of the first entry with this path. -/
def outcome? (r : Report) (path : String) : Option Outcome := (r.get? path).map (·.outcome)

/-- The entries that are not in place. -/
def failures (r : Report) : List EntryReport := r.entries.filter (·.outcome.isFailure)

/-- The entries that differ from the image and were left as they are. -/
def diverged (r : Report) : List EntryReport := r.entries.filter (·.outcome == .diverged)

/-- The line about one entry that is not in place. -/
def failureLine (e : EntryReport) : String :=
  match e.outcome with
  | .failed _ message => s!"\n  failed: {e.path}: {message}"
  | _ => s!"\n  not attempted: {e.path}"

/-- The report for a reader: the counts, then the entries that failed or differ. -/
def summary (r : Report) : String :=
  let c := r.counts
  let head := s!"{r.target}: {c.created} created, {c.overwritten} overwritten, " ++
    s!"{c.skippedUnchanged} unchanged, {c.diverged} diverged, {c.failed} failed, " ++
    s!"{c.notAttempted} not attempted"
  head ++ (if r.cancelled then " (cancelled)" else "") ++
    String.join (r.failures.map failureLine) ++
    String.join (r.diverged.map fun e => s!"\n  diverged: {e.path}")

end Report

/-- How a run ended that has a report or was fatal. -/
def Status.ofResult : Except ExtractError Report → Status
  | .ok report => report.status
  | .error _ => .fatal

end TreeImage
