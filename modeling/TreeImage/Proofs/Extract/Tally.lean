import TreeImage.Proofs.Extract.Success
import TreeImage.Proofs.Extract.Telling
import TreeImage.Proofs.Manifest.Checked

set_option autoImplicit false

/-! # Nothing fails silently

A report has one entry for each selected one, whatever happened to it on the way through the passes, and its counts
and its bytes are what these entries say. An entry that was not attempted is there only if the run was cancelled, or
stopped because another one failed (`extract_tallies`). -/

namespace TreeImage

variable {options : ExtractOptions} {plan : RunPlan} {image : Image} {schedule : List Nat} {s s' : RunState}
  {failures : RunPlan.Failures} {root : Path} {e : Entry} {entries : List Entry} {slot slot' : Slot}
  {slots slots' : List Slot} {results : List (Option Outcome)} {report : Report} {o : Outcome}

/-! ## Counts -/

theorem Counts.ofOutcomes_eq (os : List Outcome) : Counts.ofOutcomes os = {
    created := os.count .created
    skippedUnchanged := os.count .skippedUnchanged
    overwritten := os.count .overwritten
    diverged := os.count .diverged
    failed := os.countP (·.isFailed)
    notAttempted := os.count .notAttempted } := by
  -- counted on from any counts, for the induction
  have h : ∀ c : Counts, os.foldl Counts.record c = {
      created := c.created + os.count .created
      skippedUnchanged := c.skippedUnchanged + os.count .skippedUnchanged
      overwritten := c.overwritten + os.count .overwritten
      diverged := c.diverged + os.count .diverged
      failed := c.failed + os.countP (·.isFailed)
      notAttempted := c.notAttempted + os.count .notAttempted } := by
    induction os with
    | nil => exact fun _ => rfl
    | cons o os ih =>
      intro c
      rw [List.foldl_cons, ih]
      cases o <;> simp [Counts.record, Outcome.isFailed, Nat.add_assoc, Nat.add_comm 1]
  simpa [Counts.ofOutcomes] using h {}

/-- The report tallies with these entries: there is one report for each, in order, the counts and the bytes are those
    of the reports, and what was not attempted has its reason. -/
structure Report.Tallies (options : ExtractOptions) (selected : List Entry) (r : Report) : Prop where
  entries : r.entries.map (fun e => (e.path, e.kind)) = selected.map fun e => (e.path, e.kind)
  counts : r.counts = {
    created := r.entries.countP (·.outcome == .created)
    skippedUnchanged := r.entries.countP (·.outcome == .skippedUnchanged)
    overwritten := r.entries.countP (·.outcome == .overwritten)
    diverged := r.entries.countP (·.outcome == .diverged)
    failed := r.entries.countP (·.outcome.isFailed)
    notAttempted := r.entries.countP (·.outcome == .notAttempted) }
  total : r.counts.total = r.entries.length
  bytesWritten : r.bytesWritten = Entry.totalBytes (((selected.zip r.entries).filter fun x =>
    x.1.isFile && x.2.outcome.isWritten).map (·.1))
  status : r.status = .success ↔ ∀ e ∈ r.entries, e.outcome.isFailed = false ∧ e.outcome ≠ .notAttempted
  unattempted : ∀ e ∈ r.entries, e.outcome = .notAttempted →
    r.cancelled = true ∨ options.stopOnFirstError = true ∧ ∃ e' ∈ r.entries, e'.outcome.isFailed = true

/-! ## Slots before the pool -/

/-- What is known of a slot before the pool: a file can have failed only, and without a destination it has. -/
structure Slot.BeforePool (slot : Slot) : Prop where
  made : slot.made = true → slot.entry.isFile = false
  file : slot.entry.isFile = true → ∀ o, slot.outcome = some o → o.isFailed = true
  attempted : slot.outcome ≠ some .notAttempted
  rejected : slot.destination = none → slot.hasFailed = true

theorem Slot.Opened.beforePool (h : slot.Opened root e) : slot.BeforePool := by
  obtain ⟨p, -, rfl⟩ | ⟨err, -, rfl⟩ := h
  · exact ⟨nofun, nofun, nofun, fun hnowhere => nomatch hnowhere⟩
  · refine ⟨nofun, ?_, nofun, fun _ => rfl⟩
    rintro - _ ⟨⟩
    rfl

/-- Nothing happened to slots that have somewhere to go. -/
theorem open_of_opened (hopened : List.Forall₂ (fun e slot => Slot.Opened root e slot) entries slots)
    (hslot : slot ∈ slots) (hplaced : slot.destination ≠ none) : slot.outcome = none ∧ slot.made = false := by
  obtain ⟨e, -, ⟨p, -, rfl⟩ | ⟨err, -, rfl⟩⟩ := exists_of_forall₂ hopened hslot
  · exact ⟨rfl, rfl⟩
  · exact absurd rfl hplaced

theorem Slot.BeforePool.settles (h : slot.BeforePool) (hsettles : slot.Settles slot') : slot'.BeforePool := by
  cases hsettles with
  | same => exact h
  | settled hdirectory hopen hmade ho =>
    refine ⟨fun _ => hdirectory, fun hfile => absurd (hdirectory.symm.trans hfile) nofun, ?_, ?_⟩
    · rintro ⟨⟩
      simp [Outcome.isFailed] at ho
    · exact fun hnowhere => absurd hopen (Slot.decided_of_hasFailed (h.rejected hnowhere))

theorem Slot.under_eq (failures : RunPlan.Failures) (slot : Slot) : slot.under failures = slot ∨
    slot.entry.isFile = true ∧ slot.outcome = none ∧ ∃ o, RunPlan.blocked? failures slot.entry = some o ∧
      slot.under failures = { slot with outcome := some o } := by
  rw [Slot.under]
  split
  · exact .inl rfl
  · next o ho =>
    split at ho
    · next hopen =>
      rw [Bool.and_eq_true, Option.isNone_iff_eq_none] at hopen
      exact .inr ⟨hopen.1, hopen.2, o, ho, rfl⟩
    · cases ho

theorem Slot.BeforePool.under (h : slot.BeforePool) (failures : RunPlan.Failures) : (slot.under failures).BeforePool := by
  rcases slot.under_eq failures with heq | ⟨hfile, hopen, o, ho, heq⟩
  · rwa [heq]
  · rw [heq]
    have hfailed := isFailed_of_blocked? ho
    refine ⟨h.made, ?_, ?_, fun _ => hfailed⟩
    · rintro - _ ⟨⟩
      exact hfailed
    · rintro ⟨⟩
      cases hfailed

/-- The slots of a run after the pool. -/
def Course.assigned (c : Course options plan schedule image slots s report s') : List Slot :=
  RunPlan.assignResults c.waiting c.results

theorem map_entry_of_forall₂ {R : Slot → Slot → Prop} (hR : ∀ {slot slot'}, R slot slot' → slot'.entry = slot.entry)
    (h : List.Forall₂ R slots slots') : slots'.map (·.entry) = slots.map (·.entry) := by
  induction h with
  | nil => rfl
  | cons hslot _ ih => rw [List.map_cons, List.map_cons, hR hslot, ih]

section Entries

variable (c : Passage options plan schedule image slots s)
  (hopened : List.Forall₂ (fun e slot => Slot.Opened root e slot) entries slots)

include hopened

theorem Passage.beforePool : ∀ slot ∈ c.waiting, slot.BeforePool := by
  intro slot hslot
  obtain ⟨slot₁, hslot₁, rfl⟩ := List.mem_map.1 hslot
  obtain ⟨slot₀, hslot₀, hsettles⟩ := exists_of_forall₂ c.directories.settles hslot₁
  obtain ⟨e, -, hopened⟩ := exists_of_forall₂ hopened hslot₀
  exact ((Slot.Opened.beforePool hopened).settles hsettles).under c.failures

/-- The passes before the pool do not change what entries the slots are for. -/
theorem Passage.map_entry_placed : c.placed.map (·.entry) = entries := by
  rw [map_entry_of_forall₂ (fun h => by cases h <;> rfl) c.directories.settles, map_entry_of_opened hopened]

theorem Passage.map_entry_waiting : c.waiting.map (·.entry) = entries :=
  c.entries_waiting.trans (map_entry_of_opened hopened)

omit c in
/-- Nor does a later one. -/
theorem Course.map_entry (c : Course options plan schedule image slots s report s') : c.finished.map (·.entry) = entries := by
  obtain ⟨log, -, hends⟩ := c.finishing
  have hfinished := map_entry_of_forall₂ (fun h => by rcases h with rfl | ⟨-, p, e, -, rfl⟩ <;> rfl)
    (finishDirectories_ends hends).1
  rw [hfinished, map_entry_assignResults]
  exact c.map_entry_waiting hopened

end Entries

/-! ## The pool -/

/-- What is entered for a file: the bytes that are in its place, and a stop if it failed and the run is to stop or is
    fatal. -/
structure FileEntered (options : ExtractOptions) (size : Nat) (ms : List Mark) (o : Outcome) : Prop where
  attempted : o ≠ .notAttempted
  bytes : (ms.map Mark.bytes).sum = if o.isWritten then size else 0
  stop : .stop ∈ ms → o.isFailed = true ∧ (options.stopOnFirstError = true ∨ ∃ err, .raise err ∈ ms)
  stopped : o.isFailed = true → options.stopOnFirstError = true → .stop ∈ ms

theorem placeFile_enters {p : Path} {log : List (Exchange Session)} {o : Outcome}
    (h : (plan.placeFile image p e).Ends (RunState.handler options) log o) :
    FileEntered plan.options (image.content e).length (marks log) o := by
  obtain ⟨asked, result, -, -, failure, hmarks, hfailure⟩ := placeFile_ends h
  rw [hmarks]
  rcases hfailure with ⟨-, ho, rfl⟩ | ⟨err, -, rfl, rfl⟩
  · refine ⟨?_, ?_, ?_, ?_⟩
    · rintro rfl
      cases ho
    · rfl
    · intro hstop
      cases List.mem_singleton.1 hstop
    · intro hfailed
      cases ho.symm.trans (Outcome.isFailure_of_isFailed hfailed)
  · rw [RunPlan.failureMarks]
    refine ⟨by rintro ⟨⟩, ?_, fun hstop => ⟨rfl, ?_⟩, fun _ hfirst => List.mem_append_left _ ?_⟩
    · split
      · rfl
      · split <;> rfl
    · split at hstop
      · next hfatal =>
        rw [if_pos hfatal]
        exact .inr ⟨err, List.mem_append_left _ (List.mem_cons_of_mem _ (List.mem_singleton_self _))⟩
      · split at hstop
        · next hfirst => exact .inl hfirst
        · cases List.mem_singleton.1 hstop
    · rw [hfirst, if_pos rfl]
      split
      · exact List.mem_cons_self
      · exact List.mem_cons_self

section Pool

variable {pending : List Slot} {looks : List (Look Session)} {jobs : List (JobDone Session Outcome)}
  {log : List (Exchange Session)}

variable (hrun : FilesRun options plan image pending s looks jobs log results s')
  (hpending : ∀ slot ∈ pending, slot.destination ≠ none)

include hrun

/-- In the pool, only jobs make marks. -/
theorem marks_filesRun : (marks log).Perm (jobs.flatMap fun j => marks j.log) := by
  have hlooks : looks.flatMap (fun l => marks l.log) = [] :=
    List.flatMap_eq_nil_iff.2 fun l hl => (isHalted_ends (hrun.looked l hl)).1
  have hmarks := hrun.said.filterMap mark?
  rw [List.filterMap_append, List.filterMap_flatMap, List.filterMap_flatMap] at hmarks
  exact hmarks.trans (.of_eq (congrArg (· ++ _) hlooks))

include hpending

theorem exists_slot_of_job {j : JobDone Session Outcome} (hj : j ∈ jobs) :
    ∃ slot, pending[j.index]? = some slot ∧
      FileEntered plan.options (image.content slot.entry).length (marks j.log) j.result := by
  obtain ⟨slot, p, hslot, -, hends⟩ := exists_placeFile_of_job hpending hrun hj
  exact ⟨slot, hslot, placeFile_enters hends⟩

end Pool

/-! ## Bytes -/

theorem Slot.BeforePool.written (h : slot.BeforePool) : slot.written = 0 := by
  refine Slot.written_eq_zero fun hfile => ?_
  cases ho : slot.outcome with
  | none => rfl
  | some o => exact Outcome.isWritten_eq_false_of_isFailed (h.file hfile o ho)

/-- No file is in place before the passes. -/
theorem sum_written_opened (hopened : List.Forall₂ (fun e slot => Slot.Opened root e slot) entries slots) :
    (slots.map (·.written)).sum = 0 := by
  refine List.sum_eq_zero fun w hw => ?_
  obtain ⟨slot, hslot, rfl⟩ := List.mem_map.1 hw
  obtain ⟨e, -, hopened⟩ := exists_of_forall₂ hopened hslot
  exact (Slot.Opened.beforePool hopened).written

theorem Slot.isWritten_report (slot : Slot) : slot.report.outcome.isWritten = slot.outcome.any (·.isWritten) := by
  rw [report]
  cases slot.outcome <;> rfl

/-- What slots stand for, counted from their entries and their reports. -/
theorem totalBytes_written (slots : List Slot) :
    Entry.totalBytes ((((slots.map (·.entry)).zip (slots.map (·.report))).filter fun x =>
      x.1.isFile && x.2.outcome.isWritten).map (·.1)) = (slots.map (·.written)).sum := by
  induction slots with
  | nil => rfl
  | cons slot rest ih =>
    rw [List.map_cons, List.map_cons, List.zip_cons_cons, List.map_cons, List.sum_cons, Slot.written, ← ih,
      List.filter_cons, ← slot.isWritten_report]
    by_cases hin : (slot.entry.isFile && slot.report.outcome.isWritten) = true
    · rw [if_pos hin, if_pos hin, List.map_cons, Entry.totalBytes_cons]
    · rw [if_neg hin, if_neg hin, Nat.zero_add]

/-- What slots are after the results were handed out. -/
theorem mem_assignResults_iff {slots : List Slot} {results : List (Option Outcome)} :
    slot ∈ RunPlan.assignResults slots results ↔ (slot ∈ slots ∧ slot.isPending = false) ∨
      ∃ (i : Nat) (slot' : Slot), (slots.filter (·.isPending))[i]? = some slot' ∧
        slot = { slot' with outcome := results[i]?.join } := by
  refine ⟨mem_assignResults, ?_⟩
  induction slots generalizing results with
  | nil =>
    rintro (⟨hslot, -⟩ | ⟨i, slot', hslot, -⟩)
    · cases hslot
    · cases hslot
  | cons head rest ih =>
    rw [RunPlan.assignResults]
    cases hpending : head.isPending with
    | true =>
      rw [if_pos rfl, List.filter_cons_of_pos hpending]
      rintro (⟨hslot, hnot⟩ | ⟨i, slot', hslot, rfl⟩)
      · rcases List.mem_cons.1 hslot with rfl | hslot
        · rw [hpending] at hnot
          cases hnot
        · exact List.mem_cons_of_mem _ (ih (.inl ⟨hslot, hnot⟩))
      · cases i with
        | zero =>
          cases hslot
          rw [List.head?_eq_getElem?]
          exact List.mem_cons_self
        | succ i => exact List.mem_cons_of_mem _ (ih (.inr ⟨i, slot', hslot, by rw [List.getElem?_tail]⟩))
    | false =>
      rw [if_neg Bool.false_ne_true, List.filter_cons_of_neg (by rw [hpending]; exact Bool.false_ne_true)]
      rintro (⟨hslot, hnot⟩ | hassigned)
      · rcases List.mem_cons.1 hslot with rfl | hslot
        · exact List.mem_cons_self
        · exact List.mem_cons_of_mem _ (ih (.inl ⟨hslot, hnot⟩))
      · exact List.mem_cons_of_mem _ (ih (.inr hassigned))

/-! ## The run -/

theorem Slot.Finishes.written (hfinishes : slot.Finishes slot') (hmade : slot.made = true → slot.entry.isFile = false) :
    slot'.written = slot.written := by
  rcases hfinishes with rfl | ⟨hslot, p, err, -, rfl⟩
  · rfl
  · simp [Slot.written, hmade hslot]

section Run

variable (c : Course options plan schedule image slots s report s')

/-- The results of the pool are outcomes, and change nothing else of a slot. -/
theorem Course.exists_waiting (hslot : slot ∈ c.assigned) : ∃ slot' ∈ c.waiting,
    slot.entry = slot'.entry ∧ slot.destination = slot'.destination ∧ slot.made = slot'.made := by
  rcases mem_assignResults hslot with ⟨hslot, -⟩ | ⟨i, slot', hslot', rfl⟩
  · exact ⟨slot, hslot, rfl, rfl, rfl⟩
  · exact ⟨slot', (List.mem_filter.1 (List.mem_of_getElem? hslot')).1, rfl, rfl, rfl⟩

theorem Course.finishes : List.Forall₂ Slot.Finishes c.assigned c.finished := by
  obtain ⟨log, -, hends⟩ := c.finishing
  exact (finishDirectories_ends hends).1

/-- Only directories are made. -/
theorem Course.directory_of_made (hopened : List.Forall₂ (fun e slot => Slot.Opened root e slot) entries slots)
    (hslot : slot ∈ c.assigned) (hmade : slot.made = true) : slot.entry.isFile = false := by
  obtain ⟨slot', hslot', hentry, -, hsame⟩ := c.exists_waiting hslot
  rw [hentry]
  exact (c.beforePool hopened slot' hslot').made (hsame ▸ hmade)

/-- The bytes of the report are those of the files in place. -/
theorem Course.bytesWritten_eq (hplan : plan.options = options)
    (hopened : List.Forall₂ (fun e slot => Slot.Opened root e slot) entries slots)
    (hsizes : ∀ e ∈ entries, e.isFile = true → (image.content e).length = e.size.toNat) :
    c.afterFiles.bytesWritten = s.bytesWritten + (c.finished.map (·.written)).sum := by
  obtain ⟨notes, htells, haccounts⟩ := c.tells (map_entry_of_opened hopened ▸ hsizes) hplan
  -- finishing only changes directories
  have hfinished : c.finished.map (·.written) = c.assigned.map (·.written) := by
    refine List.ext_getElem (by simpa using c.finishes.length_eq.symm) fun i hi hi' => ?_
    rw [List.length_map] at hi hi'
    rw [List.getElem_map, List.getElem_map]
    exact ((List.forall₂_iff_get.1 c.finishes).2 i hi' hi).written
      (c.directory_of_made hopened (List.getElem_mem hi'))
  rw [htells.bytesWritten_eq, ← Nat.zero_add (notes.map _).sum, ← sum_written_opened hopened, haccounts.sum_written,
    hfinished]
  rfl

/-- Whatever leads from one of the states of a run to the next, a run that halts goes on to. -/
theorem Course.halts_afterFiles (hplan : plan.options = options) (h : c.afterDirectories.Halts options) :
    c.afterFiles.Halts options := by
  obtain ⟨log, hblocking, -⟩ := c.blocking
  obtain ⟨looks, jobs, log', hrun⟩ := c.filesRun hplan
  exact (h.leads hblocking).leads hrun.leads

/-- An entry is left unattempted only if the run is halted. -/
theorem Course.halts_of_unattempted (hplan : plan.options = options)
    (hopened : List.Forall₂ (fun e slot => Slot.Opened root e slot) entries slots) (hslot : slot ∈ c.assigned)
    (hout : slot.outcome.getD .notAttempted = .notAttempted) : c.afterFiles.Halts options := by
  have hbefore := c.beforePool hopened
  rcases mem_assignResults hslot with ⟨hwaiting, hnot⟩ | ⟨i, slot', hslot', rfl⟩
  · -- it is a directory that the pass left open
    have hslot' := hbefore slot hwaiting
    have hopen : slot.outcome = none := by
      cases ho : slot.outcome with
      | none => rfl
      | some o =>
        rw [ho] at hout
        exact absurd (ho.trans (congrArg some hout)) hslot'.attempted
    have hplaced : slot.destination ≠ none := fun hnone => Slot.decided_of_hasFailed (hslot'.rejected hnone) hopen
    have hdirectory : slot.entry.isFile = false := by
      cases hfile : slot.entry.isFile with
      | false => rfl
      | true => exact absurd (Slot.isPending_iff.2 ⟨hfile, hopen, hplaced⟩) (Bool.eq_false_iff.1 hnot)
    obtain ⟨slot₁, hslot₁, rfl⟩ := List.mem_map.1 hwaiting
    rcases slot₁.under_eq c.failures with heq | ⟨-, -, o, -, heq⟩
    · rw [heq] at hdirectory hopen hplaced
      exact c.halts_afterFiles hplan (c.directories.halts_of_open slot₁ hslot₁ hdirectory hopen hplaced)
    · rw [heq] at hopen
      cases hopen
  · -- it was pending, and no worker took it
    obtain ⟨looks, jobs, log, hrun⟩ := c.filesRun hplan
    have hlt := (List.getElem?_eq_some_iff.1 hslot').1
    rw [← hrun.length_results] at hlt
    have hresult : c.results[i]? = some c.results[i] := List.getElem?_eq_getElem hlt
    generalize c.results[i] = r at hresult
    cases r with
    | none =>
      obtain ⟨l, hl, hhalted⟩ := hrun.exists_halted hresult
      obtain ⟨x, hx, hsays⟩ := (isHalted_ends (hrun.looked l hl)).2.2 hhalted
      exact hrun.leads.halts ⟨x, hrun.said.mem_iff.2 (List.mem_append_left _ (List.mem_flatMap.2 ⟨l, hl, hx⟩)), hsays⟩
    | some o =>
      obtain ⟨j, hj, rfl, rfl⟩ := hrun.exists_job hresult
      obtain ⟨_, _, hentered⟩ := exists_slot_of_job hrun (fun _ hslot => destination_of_pending hslot) hj
      rw [hresult] at hout
      exact absurd hout hentered.attempted

/-- A run is stopped only where it is to stop at the first error, and an entry failed. -/
theorem Course.exists_failed_of_stopped (hplan : plan.options = options) (hstart : s.stopped = false)
    (hstopped : c.afterFiles.stopped = true) :
    options.stopOnFirstError = true ∧ ∃ slot ∈ c.finished, slot.hasFailed = true := by
  -- what failed after the pool has failed in the end
  have hkept : ∀ slot ∈ c.assigned, slot.hasFailed = true → ∃ slot ∈ c.finished, slot.hasFailed = true := by
    intro slot hslot hfailed
    obtain ⟨i, hi, rfl⟩ := List.getElem_of_mem hslot
    have hi' : i < c.finished.length := c.finishes.length_eq ▸ hi
    refine ⟨c.finished[i], List.getElem_mem hi', ?_⟩
    have hfinishes := (List.forall₂_iff_get.1 c.finishes).2 i hi hi'
    rw [List.get_eq_getElem, List.get_eq_getElem] at hfinishes
    rcases hfinishes with heq | ⟨-, p, e, -, heq⟩
    · rwa [heq]
    · rw [heq]
      rfl
  obtain ⟨looks, jobs, log, hrun⟩ := c.filesRun hplan
  rcases hrun.leads.stopped_iff.1 hstopped with hbefore | hmark
  · -- it was stopped in the directory pass
    obtain ⟨first, hfirst, hmarks⟩ := c.directories.exists_leads
    obtain ⟨second, hsecond, hwrote, -⟩ := c.blocking
    rcases hsecond.stopped_iff.1 hbefore with hpass | hnever
    · rcases hfirst.stopped_iff.1 hpass with hyes | hmark
      · exact absurd (hyes.symm.trans hstart) nofun
      · rcases hmarks _ hmark with hwrong | ⟨-, hfirst, slot, hslot, hfailed⟩
        · cases hwrong
        · refine ⟨hplan ▸ hfirst, hkept slot (mem_assignResults_iff.2 (.inl ⟨?_, ?_⟩)) hfailed⟩
          · have hunder : slot.under c.failures = slot := by
              rcases slot.under_eq c.failures with heq | ⟨-, hopen, -⟩
              · exact heq
              · exact absurd hopen (Slot.decided_of_hasFailed hfailed)
            exact hunder ▸ List.mem_map_of_mem hslot
          · rw [Bool.eq_false_iff]
            intro hpending
            exact Slot.decided_of_hasFailed hfailed (Slot.isPending_iff.1 hpending).2.1
    · cases hwrote _ hnever
  · -- it was stopped by a file
    obtain ⟨j, hj, hstop⟩ := List.mem_flatMap.1 ((marks_filesRun hrun).mem_iff.1 hmark)
    obtain ⟨slot, hslot, hentered⟩ := exists_slot_of_job hrun (fun _ hslot => destination_of_pending hslot) hj
    obtain ⟨hfailed, hfirst | ⟨err, hraise⟩⟩ := hentered.stop hstop
    · refine ⟨hplan ▸ hfirst, hkept _ (mem_assignResults_iff.2 (.inr ⟨j.index, slot, hslot, rfl⟩)) ?_⟩
      rw [Slot.hasFailed, hrun.getElem?_results hj]
      exact hfailed
    · have hnone := (hrun.leads.fatal_eq_none_iff.1 c.fatal).2 err
      exact absurd ((marks_filesRun hrun).mem_iff.2 (List.mem_flatMap.2 ⟨j, hj, hraise⟩)) hnone

/-- A run is halted only where it was cancelled, or was to stop and an entry failed. -/
theorem Course.cancelled_or_failed (hplan : plan.options = options) (hstart : s.stopped = false)
    (hhalts : c.afterFiles.Halts options) :
    report.cancelled = true ∨ options.stopOnFirstError = true ∧ ∃ slot ∈ c.finished, slot.hasFailed = true := by
  obtain hstopped | ⟨htoken, hcancelled⟩ := hhalts
  · exact .inr (c.exists_failed_of_stopped hplan hstart hstopped)
  · left
    obtain ⟨log, hleads, -⟩ := c.finishing
    have hstays := hleads.cancelled hcancelled
    have hlooked : c.atEnd.lookAtToken options.cancelToken = (c.cancelled, s') := c.looked
    obtain ⟨token, htoken⟩ := Option.isSome_iff_exists.1 htoken
    rw [htoken] at hlooked
    have hreply := congrArg Prod.fst hlooked
    rw [c.report]
    exact hreply.symm.trans (Bool.or_eq_true_iff.2 (.inl hstays))

theorem Course.unattempted (hplan : plan.options = options)
    (hopened : List.Forall₂ (fun e slot => Slot.Opened root e slot) entries slots) (hstart : s.stopped = false)
    (hslot : slot ∈ c.finished) (hout : slot.report.outcome = .notAttempted) :
    report.cancelled = true ∨ options.stopOnFirstError = true ∧ ∃ slot ∈ c.finished, slot.hasFailed = true := by
  -- it was left so by the pool
  obtain ⟨slot', hslot', hfinishes⟩ := exists_of_forall₂ c.finishes hslot
  rcases hfinishes with rfl | ⟨-, p, e, -, rfl⟩
  · exact c.cancelled_or_failed hplan hstart (c.halts_of_unattempted hplan hopened hslot' hout)
  · cases hout

include c in
/-- **The report of a run tallies with its entries.** -/
theorem Course.tallies (hplan : plan.options = options)
    (hopened : List.Forall₂ (fun e slot => Slot.Opened root e slot) entries slots)
    (hsizes : ∀ e ∈ entries, e.isFile = true → (image.content e).length = e.size.toNat)
    (hstopped : s.stopped = false) (hbytes : s.bytesWritten = 0) : report.Tallies options entries := by
  have hentries := c.map_entry hopened
  have hreport : report.entries = c.finished.map (·.report) := congrArg Report.entries c.report
  have hcounts : report.counts = .ofOutcomes (report.entries.map (·.outcome)) := by
    rw [c.report]
    rfl
  refine ⟨?_, ?_, ?_, ?_, ?_, ?_⟩
  · rw [hreport, ← hentries, List.map_map, List.map_map]
    rfl
  · rw [hcounts, Counts.ofOutcomes_eq]
    simp only [List.count, List.countP_map]
    rfl
  · rw [hcounts, Counts.total_ofOutcomes, List.length_map]
  · have hwritten : report.bytesWritten = c.afterFiles.bytesWritten := congrArg Report.bytesWritten c.report
    rw [hwritten, c.bytesWritten_eq hplan hopened hsizes, hbytes, Nat.zero_add, hreport, ← hentries,
      totalBytes_written]
  · rw [c.report, Report.status_new_eq_success_iff]
    refine forall₂_congr fun e _ => ?_
    cases e.outcome <;> simp [Outcome.isFailure, Outcome.isFailed]
  · intro e he hout
    rw [hreport] at he ⊢
    obtain ⟨slot, hslot, rfl⟩ := List.mem_map.1 he
    refine (c.unattempted hplan hopened hstopped hslot hout).imp_right ?_
    rintro ⟨hfirst, slot', hslot', hfailed⟩
    exact ⟨hfirst, _, List.mem_map_of_mem hslot', slot'.isFailed_report.trans hfailed⟩

end Run

/-! ## Extraction -/

/-- **Nothing fails silently.** Whenever a run ends in a report, this has one entry for each selected entry of the
    manifest, in order, with its path and kind. Its counts are the numbers of entries with each outcome and add up to
    the number of entries, its bytes are the sizes of the files that were created or overwritten, and it tells of
    success just if no entry failed or was not attempted. The latter happens only where the run was cancelled, or was
    to stop at the first error and another entry failed. -/
theorem extract_tallies (options : ExtractOptions) (schedule : List Nat) {bytes : Bytes} {image : Image}
    (hparse : Image.parse bytes = .ok image) (target : Option Path) (fs : FileSystem) {report : Report} {s : RunState}
    (h : extract options schedule image target (.start fs options) = (.ok report, s)) :
    report.Tallies options (image.manifest.select options.filter) := by
  obtain ⟨plan, slots, t, hplan, -, hslots, ⟨log, _, hleads, hmarks, -⟩, ⟨c⟩⟩ := extract_course h
  refine c.tallies hplan (slotsFor_opened hslots) ?_ ?_ ?_
  · exact fun e he => Image.length_content hparse ((image.manifest.select_sublist _).subset he)
  · have hledger := hleads.ledger
    rw [hmarks] at hledger
    exact congrArg Ledger.stopped hledger
  · have hledger := hleads.ledger
    rw [hmarks] at hledger
    exact congrArg Ledger.bytesWritten hledger

/-- The first file meets a directory in its place, and the run stops before the second. -/
theorem extract_tallies_stopped :
    let options : ExtractOptions := { workers := 2, stopOnFirstError := true }
    let image : Image := .written ⟨[.file "a" 0 1 (.of [120]) none, .file "b" 0 0 (.of []) none]⟩ [120]
    let fs := rootWith [([utf8 "out", utf8 "a"], .directory 0o755)]
    Image.parse image.source = .ok image ∧
      ∃ report s, extract options [] image (some (.ofString "/out")) (.start fs options) = (.ok report, s) ∧
        report.status = .partialFailure ∧ report.Tallies options (image.manifest.select options.filter) := by
  intro options image fs
  have hvalid : ∀ d d' : Digest, Manifest.validate ⟨[.file "a" 0 1 d none, .file "b" 0 0 d' none]⟩ 1 = .ok () := by
    intro d d'
    cbv
  have hparse : Image.parse image.source = .ok image :=
    Image.parse_written (by decide) (by decide) (hvalid _ _) (by decide)
  have hreport : (extract options [] image (some (.ofString "/out")) (.start fs options)).1.toOption.map
      (fun r => (r.target, r.status, r.diverged)) = some (.ofString "/out", .partialFailure, []) := by decide +kernel
  obtain ⟨report, hrun, -, hstatus, -⟩ := exists_report hreport
  exact ⟨hparse, report, _, hrun, hstatus, extract_tallies options [] hparse (some (.ofString "/out")) fs hrun⟩

end TreeImage
