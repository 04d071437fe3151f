import TreeImage.Proofs.Extract.Cancelling
import TreeImage.Proofs.Extract.DirectoryModes
import TreeImage.Proofs.Extract.Standing

set_option autoImplicit false

/-! # Cancellation freezes a run

Where nobody but the run changes the file system, a run of one worker that is cancelled in a callback makes nothing from
then on. It still fails the files in directories that failed, and it gives the directories that it made their modes,
which cannot fail. Then it reports that it was cancelled (`extract_freezes`). -/

namespace TreeImage

open FileSystem

variable {options : ExtractOptions} {plan : RunPlan} {image : Image} {schedule : List Nat} {s s' : RunState}
  {names real : RealPath} {start fs fs' fs'' : FileSystem} {failures : RunPlan.Failures} {e : Entry} {entries : List Entry}
  {slot : Slot} {slots : List Slot} {report : Report} {o : Outcome}

/-! ## Modes of new directories -/

/-- Nothing else became of the file system than other modes of directories that did not stand there at the start. -/
structure FileSystem.Retouches (start fs fs' : FileSystem) : Prop where
  keeps : Keeps fs fs'
  changed : ∀ q, fs'.get? q ≠ fs.get? q →
    start.get? q = none ∧ fs.isDirectoryAt q = true ∧ fs'.isDirectoryAt q = true

theorem FileSystem.Retouches.refl (start fs : FileSystem) : Retouches start fs fs := ⟨.refl fs, fun _ hq => absurd rfl hq⟩

theorem FileSystem.Retouches.trans (h : Retouches start fs fs') (h' : Retouches start fs' fs'') :
    Retouches start fs fs'' := by
  refine ⟨h.keeps.trans h'.keeps, fun q hq => ?_⟩
  by_cases hfirst : fs'.get? q = fs.get? q
  · obtain ⟨hnew, hdir, hdir'⟩ := h'.changed q (hfirst ▸ hq)
    exact ⟨hnew, by rwa [isDirectoryAt, ← hfirst], hdir'⟩
  · obtain ⟨hnew, hdir, hdir'⟩ := h.changed q hfirst
    by_cases hlast : fs''.get? q = fs'.get? q
    · exact ⟨hnew, hdir, by rwa [isDirectoryAt, hlast]⟩
    · exact ⟨hnew, hdir, (h'.changed q hlast).2.2⟩

/-- A directory that the run made is finished without failure, even where links lead to it. -/
theorem run_finishDirectory_new (options : ExtractOptions) (h : slot.MadeNew start s.fs) :
    ∃ s', (RunPlan.finishDirectory slot).run (RunState.handler options) s = (slot, s') ∧ Retouches start s.fs s'.fs := by
  by_cases hmode : ∃ mode, slot.made = true ∧ slot.entry.mode = some mode
  · obtain ⟨mode, hmade, hmode⟩ := hmode
    obtain ⟨p, d, hp, hleads, hnew⟩ := h hmade
    obtain ⟨s', hrun, hkeeps, hother, hset, -⟩ := run_finishDirectory_of_made options hmade hmode hp hleads
    refine ⟨s', hrun, hkeeps, fun q hq => ?_⟩
    obtain rfl : q = d := hother.of_changed hq
    obtain ⟨m, hfind⟩ := hleads.find
    exact ⟨hnew, isDirectoryAt_iff.2 ⟨m, (find_eq_ok_iff.1 hfind).2⟩, isDirectoryAt_iff.2 ⟨_, hset⟩⟩
  · rw [finishDirectory_eq_done hmode]
    exact ⟨s, rfl, .refl start s.fs⟩

theorem run_finishDirectories_new (options : ExtractOptions) (h : ∀ slot ∈ slots, slot.MadeNew start s.fs) :
    ∃ s', (RunPlan.finishDirectories slots).run (RunState.handler options) s = (slots, s') ∧
      Retouches start s.fs s'.fs := by
  induction slots with
  | nil => exact ⟨s, rfl, .refl start s.fs⟩
  | cons slot rest ih =>
    obtain ⟨hslot, hrest⟩ := List.forall_mem_cons.1 h
    obtain ⟨t, hrunRest, hafter⟩ := ih hrest
    obtain ⟨u, hrun, hlast⟩ := run_finishDirectory_new options (hslot.keeps hafter.keeps)
    refine ⟨u, ?_, hafter.trans hlast⟩
    rw [RunPlan.finishDirectories]
    refine (Program.run_bind _ _ _ _).trans ?_
    rw [hrunRest]
    refine (Program.run_bind _ _ _ _).trans ?_
    rw [hrun]
    rfl

theorem isPlain_finishDirectories (slots : List Slot) : (RunPlan.finishDirectories slots).IsPlain := by
  induction slots with
  | nil => trivial
  | cons slot rest ih =>
    refine ih.bind fun rest' => Program.IsPlain.bind ?_ fun _ => trivial
    unfold RunPlan.finishDirectory
    split
    · exact (isPlain_onFiles _).bind fun result => by cases result <;> trivial
    · trivial

/-- The end of a run tells nobody anything, reports the slots as they are, and that the run was cancelled if it was. -/
theorem run_conclude_new (htoken : options.cancelToken.isSome = true) (h : ∀ slot ∈ slots, slot.MadeNew start s.fs)
    (bytesWritten : Nat) : ∃ cancelled s', (plan.conclude slots bytesWritten).run (RunState.handler options) s =
        (.new plan.root (slots.map (·.report)) bytesWritten cancelled, s') ∧
      Retouches start s.fs s'.fs ∧ (∃ events, s'.trace = s.trace ++ events ∧ ∀ p, .told p ∉ events) ∧
      (s.cancelled = true → cancelled = true) := by
  obtain ⟨token, htoken⟩ := Option.isSome_iff_exists.1 htoken
  obtain ⟨t, hfinish, hretouches⟩ := run_finishDirectories_new options h
  obtain ⟨⟨events, htrace, htold⟩, hcancelled⟩ := (isPlain_finishDirectories slots).run_trace options s
  rw [hfinish] at htrace hcancelled
  obtain ⟨hfs, hsame⟩ := t.fs_lookAtToken options.cancelToken
  refine ⟨(t.lookAtToken options.cancelToken).1, (t.lookAtToken options.cancelToken).2, ?_, hfs ▸ hretouches,
    ⟨events, hsame.trans htrace, htold⟩, fun hyes => ?_⟩
  · rw [RunPlan.conclude]
    refine (Program.run_bind _ _ _ _).trans ?_
    rw [hfinish]
    rfl
  · rw [htoken]
    exact Bool.or_eq_true_iff.2 (.inl (hcancelled.trans hyes))

/-! ## Entries that a run did not come to -/

theorem RunPlan.blocked?_eq_some (h : blocked? failures e = some o) : ∃ parent kind, e.parent? = some parent ∧
    failures.lookup parent = some kind ∧ o = .failed kind s!"parent directory '{parent}' could not be created" := by
  rw [blocked?] at h
  split at h
  · cases h
  · next parent hparent =>
    obtain ⟨kind, hlookup, rfl⟩ := Option.map_eq_some_iff.1 h
    exact ⟨parent, kind, hparent, hlookup, rfl⟩

/-- What a run reports of an entry that it did not come to. A file in a directory that failed has failed with it, and
    anything else was not attempted. -/
inductive EntryReport.Skipped (all : List EntryReport) (r : EntryReport) : Prop
  | blocked {d : EntryReport} {kind : ErrorKind} {message : String} (hfile : r.kind = .file) (hd : d ∈ all)
      (hdirectory : d.kind = .directory) (hparent : parentPath? r.path = some d.path) (hfailed : d.outcome = .failed kind message)
      (ho : r.outcome = .failed kind s!"parent directory '{d.path}' could not be created")
  | left (ho : r.outcome = .notAttempted) (hfine : r.kind = .file → ∀ d ∈ all, d.kind = .directory →
      parentPath? r.path = some d.path → d.outcome.isFailed = false)

section Course

variable (c : Course options plan schedule image slots s report s')
  (hopened : List.Forall₂ (fun e slot => Slot.Opened plan.root e slot) entries slots) (horder : Entry.InOrder entries)

include hopened horder

/-- The parent directory of an entry with an accepted path is noted with the kind of its failure, if it failed. -/
theorem Course.noted_parent {p : Path} {d : Slot} (hd : d ∈ c.placed) (hdirectory : d.entry.isFile = false)
    (hp : sanitize plan.root e.path = .ok p) (hparent : e.parent? = some d.entry.path) (hfailed : d.hasFailed = true) :
    ∃ kind message, d.outcome = some (.failed kind message) ∧ c.failures.lookup d.entry.path = some kind := by
  obtain ⟨q, hq⟩ := exists_sanitize_above hp (isOnTheWay_of_parentPath? hp hparent)
  have hplaced : d.IsPlaced := ⟨hdirectory, by rw [(c.destination_iff_of_placed hopened hd).2 hq]; exact nofun⟩
  cases c.noted hopened horder hd hplaced with
  | left hopen => exact absurd hopen (Slot.decided_of_hasFailed hfailed)
  | @settled o ho hnoted =>
    cases o with
    | failed kind message => exact ⟨kind, message, ho, hnoted kind message rfl⟩
    | _ => rw [Slot.hasFailed, ho] at hfailed; cases hfailed

/-- A file that is blocked fails with the directory that it lies in. -/
theorem Course.skipped_of_blocked {p : Path} (hfile : slot.entry.isFile = true)
    (hp : sanitize plan.root slot.entry.path = .ok p) (hblocked : RunPlan.blocked? c.failures slot.entry = some o) :
    (Slot.report { slot with outcome := some o }).Skipped (c.assigned.map (·.report)) := by
  obtain ⟨parent, kind, hparent, hlookup, rfl⟩ := RunPlan.blocked?_eq_some hblocked
  have hnoted : c.failures.lookup parent ≠ none := hlookup ▸ Option.some_ne_none kind
  obtain ⟨d, hd, hdirectory, rfl, hfailed⟩ := c.directories.exists_failed rfl hnoted
  obtain ⟨kind', message, ho, hlookup'⟩ := c.noted_parent hopened horder hd hdirectory hp hparent hfailed
  obtain rfl := Option.some.inj (hlookup'.symm.trans hlookup)
  have hreport : d.report.outcome = .failed kind' message := by rw [Slot.report, ho]; rfl
  exact .blocked (beq_iff_eq.1 hfile) (List.mem_map_of_mem (c.mem_assigned hd hdirectory))
    (Entry.isFile_eq_false_iff.1 hdirectory) hparent hreport rfl

/-- The directory that a file lies in has not failed if the file is still waiting for the pool. -/
theorem Course.hasFailed_parent_of_pending {p : Path} {d : Slot} (hwaiting : slot ∈ c.waiting)
    (hpending : slot.isPending = true) (hp : sanitize plan.root slot.entry.path = .ok p) (hd : d ∈ c.assigned)
    (hdirectory : d.entry.isFile = false) (hparent : slot.entry.parent? = some d.entry.path) : d.hasFailed = false := by
  rw [Bool.eq_false_iff]
  intro hfailed
  -- the file would be blocked
  obtain ⟨kind, -, -, hlookup⟩ :=
    c.noted_parent hopened horder (c.mem_placed hd hdirectory) hdirectory hp hparent hfailed
  obtain ⟨message, hblocked⟩ := RunPlan.exists_blocked hparent hlookup
  obtain ⟨hfile, hopen, -⟩ := Slot.isPending_iff.1 hpending
  obtain ⟨slot₁, -, rfl⟩ := List.mem_map.1 hwaiting
  rcases slot₁.under_eq c.failures with heq | ⟨-, -, o, -, heq⟩
  · rw [heq] at hblocked hfile hopen
    rw [Slot.under, if_pos (by rw [hfile, hopen]; rfl), hblocked] at heq
    cases (congrArg Slot.outcome heq).trans hopen
  · cases (congrArg Slot.outcome heq).symm.trans hopen

variable (hplaced : List.Forall₂ (Slot.SettledInTime options start c.afterFiles.trace) slots c.placed)
  (hresults : ∀ (i : Nat) (slot : Slot) (o : Outcome), (c.waiting.filter (·.isPending))[i]? = some slot →
    c.results[i]?.join = some o → ToldInTime options start slot.entry.path c.afterFiles.trace)

include hplaced hresults

/-- **An entry with an accepted path that was not told of in time was skipped.** -/
theorem Course.skipped (hslot : slot ∈ c.assigned) {p : Path} (hp : sanitize plan.root slot.entry.path = .ok p)
    (huntold : ¬ToldInTime options start slot.entry.path c.afterFiles.trace) :
    slot.report.Skipped (c.assigned.map (·.report)) := by
  have hnothing : slot.outcome = none → slot.report.outcome = .notAttempted := fun hopen => by rw [Slot.report, hopen]; rfl
  rcases mem_assignResults hslot with ⟨hwaiting, hnot⟩ | ⟨i, pending, hpending, rfl⟩
  · have hdestination : slot.destination ≠ none := by
      rw [(c.destination_iff_of_waiting hopened hwaiting).2 hp]
      exact Option.some_ne_none p
    cases hfile : slot.entry.isFile with
    | false =>
      obtain ⟨slot₀, hslot₀, rfl | htold⟩ := exists_of_forall₂ hplaced (c.mem_placed hslot hfile)
      · refine .left (hnothing (open_of_opened hopened hslot₀ hdestination).1) fun hyes => ?_
        exact absurd (hfile.symm.trans (beq_iff_eq.2 hyes)) Bool.false_ne_true
      · exact absurd htold huntold
    | true =>
      obtain ⟨slot₁, hslot₁, rfl⟩ := List.mem_map.1 hwaiting
      rcases slot₁.under_eq c.failures with heq | ⟨-, -, o, hblocked, heq⟩
      · -- a file that is not blocked would be pending
        rw [heq] at hnot hfile hdestination
        have hpending := Slot.isPending_iff.2 ⟨hfile, c.open_of_file hopened hslot₁ hfile hdestination, hdestination⟩
        cases hpending.symm.trans hnot
      · rw [heq] at hfile hp ⊢
        exact c.skipped_of_blocked hopened horder hfile hp hblocked
  · obtain ⟨hwaiting, hispending⟩ := List.mem_filter.1 (List.mem_of_getElem? hpending)
    cases ho : c.results[i]?.join with
    | some o => exact absurd (hresults i pending o hpending ho) huntold
    | none =>
      refine .left rfl fun hfile r hr hdirectory hparent => ?_
      obtain ⟨d, hd, rfl⟩ := List.mem_map.1 hr
      rw [d.isFailed_report]
      exact c.hasFailed_parent_of_pending hopened horder hwaiting hispending hp hd
        (Entry.isFile_eq_false_iff.2 hdirectory) hparent

end Course

/-! ## The whole run -/

/-- What becomes of a run that is cancelled in a callback: of the entries that it selected, of the file system at the
    start, now, and in the end, with the trace up to now and after this. -/
structure Report.Frozen (report : Report) (entries : List Entry) (start now last : FileSystem) (known after : List Event) :
    Prop where
  cancelled : report.cancelled = true
  calls : ∀ c met, .call c met ∈ after → c.SetsRecordedMode report.target entries
  changed : ∀ q, last.get? q ≠ now.get? q →
    start.get? q = none ∧ now.isDirectoryAt q = true ∧ last.isDirectoryAt q = true
  entries : report.entries.map (fun r => (r.path, r.kind)) = entries.map fun e => (e.path, e.kind)
  skipped : ∀ r ∈ report.entries, (∃ q, sanitize report.target r.path = .ok q) →
    (∀ p, .told p ∈ known → p.current ≠ r.path) → r.Skipped report.entries

section Run

variable (hquiet : options.IsQuiet) (hplan : plan.options = options) (hroot : plan.Rooted names real s.fs)
  (hopened : List.Forall₂ (fun e slot => Slot.Opened plan.root e slot) entries slots) (hgrows : Grows start s.fs)

include hquiet hplan hroot hopened hgrows

/-- When the files are done, the directories that the run made are where their destinations lead. -/
theorem Course.madeNew (c : Course options plan schedule image slots s report s') :
    ∀ slot ∈ c.assigned, slot.MadeNew start c.afterFiles.fs := by
  obtain ⟨hgrown, hprepared⟩ := c.prepared hquiet hroot hopened
  obtain ⟨hframe, -⟩ := files_sparing hquiet schedule hplan (spares_emptied options s.fs) (hroot.keeps hgrown.keeps)
    (fun slot hslot => (hprepared slot (List.mem_filter.1 hslot).1).destination) nofun c.files
  refine madeNew_assigned fun slot hslot hmade => ?_
  obtain ⟨p, d, hp, hd, hnew⟩ := (hprepared slot hslot).grounded.made hmade
  exact ⟨p, d, hp, hframe.keeps.leadsTo hd, hgrows.get?_eq_none hnew⟩

variable (horder : Entry.InOrder entries) (hone : options.workers ≤ 1) (htoken : options.cancelToken.isSome = true)
  (hs : s.Heeds options start) {before after : List Event} {p : Progress} (htrace : s'.trace = before ++ .told p :: after)
  (hcancels : options.CancelsAt p (start.leftBy before))

include horder hone htoken hs htrace hcancels

/-- A run that was cancelled in a callback, and came to its report, is frozen. -/
theorem Course.frozen (c : Course options plan schedule image slots s report s')
    (hconclude : (plan.conclude c.assigned c.afterFiles.bytesWritten).run (RunState.handler options) c.afterFiles =
      (report, s')) :
    report.Frozen entries start (start.leftBy before) s'.fs (before ++ [.told p]) after := by
  have hlistens := hcancels
  obtain ⟨listener, hlistener, -⟩ := hlistens
  obtain ⟨hheeds, hplaced, hresults⟩ := c.heeds hquiet hlistener htoken hplan hone hs
  obtain ⟨cancelled, s', hconclude', hretouches, ⟨events, hevents, htold⟩, hcancelled⟩ :=
    run_conclude_new htoken (c.madeNew hquiet hplan hroot hopened hgrows) c.afterFiles.bytesWritten
  obtain ⟨hreport, rfl⟩ := Prod.mk.inj (hconclude.symm.trans hconclude')
  -- the run was cancelled before its last pass, and no call was made between that and the pass
  obtain ⟨after, hsplit, rfl⟩ := exists_append_of_not_mem (hevents.symm.trans htrace) (htold p)
  have hstill := hheeds.still before p after hsplit hcancels
  have hfs : start.leftBy before = c.afterFiles.fs := by
    rw [← hheeds.left, hsplit, leftBy_append]
    exact (leftBy_of_no_call hstill).symm
  have hknown : c.afterFiles.cancelled = true := by
    by_contra hgoes
    exact hheeds.cancelled (Bool.eq_false_iff.2 hgoes) before p after hsplit hcancels
  rw [hreport]
  refine ⟨hcancelled hknown, fun call met hcall => ?_, hfs ▸ hretouches.changed, ?_, fun r hr hp huntold => ?_⟩
  · obtain ⟨finishing, hfinishing, hsets⟩ := c.exists_finishing hopened
    obtain rfl : events = finishing := List.append_cancel_left (hevents.symm.trans hfinishing)
    exact hsets call met ((List.mem_append.1 hcall).resolve_left (hstill call met))
  · have hentries : c.assigned.map (·.entry) = entries :=
      (map_entry_assignResults ..).trans (c.map_entry_waiting hopened)
    rw [← hentries, List.map_map]
    exact List.map_map
  · obtain ⟨slot, hslot, rfl⟩ := List.mem_map.1 hr
    obtain ⟨q, hq⟩ := hp
    refine c.skipped hopened horder hplaced hresults hslot hq fun hintime => ?_
    obtain ⟨p', hp', hpath⟩ := hintime.told_by hsplit hcancels
    exact huntold p' hp' hpath

end Run

/-- **Cancellation freezes a run.** Let a run with a token have one worker, and nobody else change the file system. Say
    that whoever listens cancels it when told of some entry: the trace shows the calls before this and those after it.
    From then on the run makes no calls but those that set the recorded modes of directory entries, and all
    that this changes are directories that it had made. In the end it reports that it was cancelled. An
    entry with an accepted path that nobody had been told of by then was not attempted, or is a file that failed with the
    directory that it lies in. -/
theorem extract_freezes {options : ExtractOptions} (hquiet : options.IsQuiet) (hone : options.workers ≤ 1)
    (htoken : options.cancelToken.isSome = true) (schedule : List Nat) {bytes : Bytes} {image : Image}
    (hparse : Image.parse bytes = .ok image) (target : Option Path) (fs : FileSystem)
    {result : Except ExtractError Report} {s : RunState}
    (h : extract options schedule image target (.start fs options) = (result, s)) {before after : List Event}
    {p : Progress} (htrace : s.trace = before ++ .told p :: after) (hcancels : options.CancelsAt p (fs.leftBy before)) :
    ∃ report, result = .ok report ∧ report.Frozen (image.manifest.select options.filter) fs (fs.leftBy before) s.fs
      (before ++ [.told p]) after := by
  have hcut : ¬Uncancelled options fs s.trace := fun hgoes => hgoes before p after htrace hcancels
  have hprepare := prepare_heeds hquiet htoken fs.cwd.toPath fs.executable image target fs
  obtain ⟨err, hfailed, -⟩ | ⟨plan, slots, t, hprepared, hplan, -, hslots, ⟨log, -, hleads, hmarks, -⟩, hexecute⟩ :=
    extract_cases h
  · exact absurd (hprepare.ends hfailed).2 hcut
  replace hprepared : (prepare options fs.cwd.toPath fs.executable image target).run (RunState.handler options)
      (.start fs options) = (.ok (plan, slots), t) := hprepared
  obtain ⟨ht, -⟩ := hprepare.ends hprepared
  obtain ⟨names, -, -, -, hready⟩ := (prepare_run hquiet hprepared).resolve_left fun ⟨_, _, e, he⟩ => nomatch he
  obtain ⟨-, real, hroot, -⟩ := hready plan slots rfl
  have hgrows : Grows fs t.fs := (run_prepare_grows hquiet hprepared).1
  have hopened := slotsFor_opened hslots
  have horder : Entry.InOrder (image.manifest.select options.filter) := Image.inOrder_select hparse
  obtain ⟨err, hpass, -⟩ | ⟨c, ⟨cause, hfatal, -⟩ | ⟨hfatal, report, rfl, hconclude⟩⟩ :=
    RunPlan.execute_cases hplan hexecute
  · -- the directory pass only fails where it had looked before
    obtain ⟨listener, hlistener, -⟩ := hcancels
    obtain ⟨hs, hgoes, -⟩ := (directoryPass_heeds hquiet hlistener htoken ht).ends hpass
    exact absurd (hs.cancelled (hgoes err rfl)) hcut
  · have hstart : t.fatal = none := by
      have hledger := hleads.ledger
      rw [hmarks] at hledger
      exact congrArg Ledger.fatal hledger
    cases hfatal.symm.trans (c.fatal_eq_none hquiet hplan hroot hopened horder hstart)
  · obtain ⟨c, rfl⟩ := c.exists_course hfatal hconclude
    exact ⟨report, rfl, c.frozen hquiet hplan hroot hopened hgrows horder hone htoken ht htrace hcancels hconclude⟩

/-- The run is cancelled when a directory has failed that a file stands in the place of. One that was made before gets
    its mode. The file below the one that failed has failed with it, and nothing else was attempted. -/
theorem extract_freezes_at_directory :
    let listener : ProgressListener := fun p fs => (fs, p.current = "d")
    let options : ExtractOptions := { workers := 1, onProgress := some listener, cancelToken := some ⟨false, fun _ => false⟩ }
    let image : Image := .written ⟨[.directory "b" (some 0o700), .directory "d" none, .directory "e" none,
      .file "b/x" 0 1 (.of [120]) none, .file "d/y" 0 0 (.of []) none, .file "z" 0 0 (.of []) none]⟩ [120]
    let fs := rootWith [([utf8 "out", utf8 "d"], .file 0o644 [])]
    options.IsQuiet ∧ options.workers ≤ 1 ∧ options.cancelToken.isSome = true ∧ Image.parse image.source = .ok image ∧
      ∃ (result : Except ExtractError Report) (s : RunState) (before after : List Event) (report : Report),
        extract options [] image (some (.ofString "/out")) (.start fs options) = (result, s) ∧
        s.trace = before ++ .told ⟨2, 6, 0, 1, "d"⟩ :: after ∧
        options.CancelsAt ⟨2, 6, 0, 1, "d"⟩ (fs.leftBy before) ∧ result = .ok report ∧
        report.entries = [⟨"b", .directory, .created⟩,
          ⟨"d", .directory, .ofError (.conflict (.ofString "/out/d") .nonDirectory)⟩, ⟨"e", .directory, .notAttempted⟩,
          ⟨"b/x", .file, .notAttempted⟩, ⟨"d/y", .file, .failed .conflict "parent directory 'd' could not be created"⟩,
          ⟨"z", .file, .notAttempted⟩] ∧
        report.Frozen image.manifest.entries fs (fs.leftBy before) s.fs (before ++ [.told ⟨2, 6, 0, 1, "d"⟩]) after := by
  intro listener options image fs
  have hquiet : options.IsQuiet := by
    rintro _ ⟨⟩ p fs
    rfl
  have hvalid : ∀ d d' d'' : Digest, Manifest.validate ⟨[.directory "b" (some 0o700), .directory "d" none, .directory "e" none,
      .file "b/x" 0 1 d none, .file "d/y" 0 0 d' none, .file "z" 0 0 d'' none]⟩ 1 = .ok () := by
    intro d d' d''
    cbv
  have hparse : Image.parse image.source = .ok image :=
    Image.parse_written (by decide) (by decide) (hvalid _ _ _) (by decide)
  have hentries : (extract options [] image (some (.ofString "/out")) (.start fs options)).1.toOption.map
      (fun r => (r.target, r.entries)) = some (.ofString "/out", [⟨"b", .directory, .created⟩,
        ⟨"d", .directory, .ofError (.conflict (.ofString "/out/d") .nonDirectory)⟩, ⟨"e", .directory, .notAttempted⟩,
        ⟨"b/x", .file, .notAttempted⟩, ⟨"d/y", .file, .failed .conflict "parent directory 'd' could not be created"⟩,
        ⟨"z", .file, .notAttempted⟩]) := by decide +kernel
  have htold : .told ⟨2, 6, 0, 1, "d"⟩ ∈
      (extract options [] image (some (.ofString "/out")) (.start fs options)).2.trace := by decide +kernel
  obtain ⟨report, hrun, -, hlist⟩ := exists_entries hentries
  obtain ⟨before, after, htrace⟩ := List.append_of_mem htold
  have hcancels : options.CancelsAt ⟨2, 6, 0, 1, "d"⟩ (fs.leftBy before) := ⟨listener, rfl, rfl⟩
  obtain ⟨_, ⟨⟩, hfrozen⟩ := extract_freezes hquiet (by decide) rfl [] hparse (some (.ofString "/out")) fs hrun htrace hcancels
  exact ⟨hquiet, by decide, rfl, hparse, _, _, before, after, report, hrun, htrace, hcancels, rfl, hlist, hfrozen⟩

end TreeImage
