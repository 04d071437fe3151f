import TreeImage.Proofs.Extract.Blocking

set_option autoImplicit false

/-! # Where effects land

Whoever listens may change the file system each time an entry is done, so what was confirmed for one entry says nothing
of the next. But for every entry the directory it lies in is confirmed again before anything is touched, and with one
worker nobody comes in between: whatever such a run changes lies inside the real root (`extract_lands`). Only its last
pass has no such look. It sets the modes of directories at their destinations, wherever these lead by then
(`extract_sets_mode_outside`). -/

namespace TreeImage

open FileSystem

variable {α β : Type} {options : ExtractOptions} {plan : RunPlan} {image : Image} {schedule : List Nat}
  {names real r : RealPath} {n : Name} {p : Path} {entry : String} {e : Entry} {fs : FileSystem} {slot : Slot}
  {slots pending : List Slot} {entries : List Entry} {failures : RunPlan.Failures} {s s' t : RunState} {log : List (Exchange Session)}
  {post : α → Unit → FileSystem → Prop}

/-! ## Calls that land inside -/

/-- What the call changes lies strictly inside the real root. -/
def FileCall.LandsIn (real : RealPath) (fs : FileSystem) (c : FileCall) : Prop :=
  ∀ q, (fs.answer c).2.get? q ≠ fs.get? q → real.Contains q

/-- The discipline of a part that is alone, and changes nothing but what lies inside the real root. -/
abbrev landing (real : RealPath) : Discipline (I := Files) FileSystem.answer Unit :=
  .alone _ fun c fs => FileCall.LandsIn real fs c

theorem letsAsk_landing : (landing real).LetsAsk := by
  intro _ c fs hstill q hq
  exact absurd (congrArg (FileSystem.get? · q) hstill) hq

theorem landing_makeDirectory {f : Except Refusal Unit → Program Files α}
    (herror : ∀ e, (f (.error e)).Obeys (landing real) post () fs)
    (hok : ∀ fs', fs.makeDirectory p = .ok fs' → (∀ q, fs'.get? q ≠ fs.get? q → real.Contains q) ∧
      (f (.ok ())).Obeys (landing real) post () fs') :
    (Files.makeDirectory p >>= f).Obeys (landing real) post () fs := by
  have hcall : (∀ q, (fs.settle (fs.makeDirectory p)).2.get? q ≠ fs.get? q → real.Contains q) ∧
      (f (fs.settle (fs.makeDirectory p)).1).Obeys (landing real) post () (fs.settle (fs.makeDirectory p)).2 :=
    settle_cases (P := fun reply fs' => (∀ q, fs'.get? q ≠ fs.get? q → real.Contains q) ∧
      (f reply).Obeys (landing real) post () fs') (fun e _ => ⟨fun _ hq => absurd rfl hq, herror e⟩) hok
  exact Program.obeys_alone_call hcall.1 hcall.2

/-! ## Entries -/

theorem acceptExisting_landing (p : Path) (e : FsError) :
    (do if ← Files.isDirectory p then return .ok .existing else return .error e :
      Program Files (Except FsError DirectoryState)).Obeys (landing real) (fun _ _ _ => True) () fs := by
  refine ask_isDirectory letsAsk_landing ?_
  rintro _ rfl -
  split <;> trivial

/-- A directory is made in one that is confirmed. -/
theorem ensureDirectory_landing (hproper : RealPath.IsProper (r ++ [n])) {q : RealPath}
    (hq : fs.resolve true r.toPath = .ok q) (hin : real <+: q) :
    (ensureDirectory (RealPath.toPath (r ++ [n])) none).Obeys (landing real) (fun _ _ _ => True) () fs := by
  unfold ensureDirectory
  refine ask_inspectLink letsAsk_landing ?_
  rintro fs rfl -
  cases hinspect : fs.inspect false (RealPath.toPath (r ++ [n])) with
  | ok info =>
    cases hkind : info.kind with
    | symlink =>
      simp only [hkind]
      exact acceptExisting_landing _ _
    | _ =>
      simp only [hkind]
      trivial
  | error e =>
    cases e with
    | notFound =>
      simp only [createMissing]
      refine landing_makeDirectory ?_ ?_
      · intro e
        cases e with
        | alreadyExists => exact acceptExisting_landing _ _
        | _ => trivial
      · intro fs' hmake
        obtain ⟨d, mode, hd, -, rfl, -⟩ := makeDirectory_entry_eq_ok hproper hmake
        obtain rfl : d = q := Except.ok.inj (hd.1.symm.trans hq)
        refine ⟨fun q' hq' => ?_, trivial⟩
        rw [(agreeOutside_put fs _ _).of_changed hq']
        exact .append hin n
    | _ => trivial

theorem createDirectory_landing (hreal : real.IsProper) (hproper : RealPath.IsProper (r ++ [n])) :
    (createDirectory real.toPath (RealPath.toPath (r ++ [n])) entry).Obeys (landing real) (fun _ _ _ => True) () fs := by
  unfold createDirectory
  refine (confirmParent_obeys letsAsk_landing hreal hproper).bind ?_
  rintro (e | ⟨⟩) ⟨⟩ fs₁ ⟨-, rfl, -, hparent⟩
  · trivial
  · obtain ⟨q, hq, hin⟩ := hparent rfl
    refine (ensureDirectory_landing hproper hq hin).bind ?_
    rintro (e | state) ⟨⟩ fs₂ -
    · trivial
    · exact (confirmWithin_obeys letsAsk_landing hreal hproper).bind fun _ _ _ _ => trivial

/-- For a worker that is alone, its file is the only one that is pending. -/
theorem writeFile_landing (hreal : real.IsProper) (hp : slot.destination = some p) (hspelled : slot.IsSpelled p)
    (content : Bytes) :
    (writeFile options real.toPath p slot.entry content).Obeys (landing real) (fun _ _ _ => True) () fs := by
  have hfiling : (writeFile options real.toPath p slot.entry content).Obeys (filing real fs [slot]) _ .initial fs :=
    writeFile_filing (List.mem_singleton_self slot) hp hspelled hreal rfl
  exact hfiling.alone (FileClaim.fits_initial real fs [slot]) fun _ _ _ _ hmove _ _ => hmove.inside

/-! ## Parts of a run -/

/-- A call to the file system lands inside. -/
def SessionCall.LandsIn (real : RealPath) (s : RunState) : SessionCall → Prop
  | .file c => c.LandsIn real s.fs
  | _ => True

/-- The discipline of a part of a run that is alone, and changes nothing but what lies inside the real root. -/
abbrev landings (options : ExtractOptions) (real : RealPath) : Discipline (RunState.handler options) Unit :=
  .alone _ fun c s => SessionCall.LandsIn real s c

/-- Wherever it starts, the part changes nothing but what lies inside the real root. -/
def Program.Lands (options : ExtractOptions) (real : RealPath) (prog : Program Session α) : Prop :=
  ∀ s, prog.Obeys (landings options real) (fun _ _ _ => True) () s

theorem Program.lands_done (a : α) : (Program.done a).Lands options real := fun _ => trivial

theorem Program.Lands.bind {prog : Program Session α} {f : α → Program Session β} (hprog : prog.Lands options real)
    (hf : ∀ a, (f a).Lands options real) : (prog.bind f).Lands options real :=
  fun s => (hprog s).bind fun a _ t _ => hf a t

theorem Program.IsTacit.lands {prog : Program Session α} (h : prog.IsTacit) : prog.Lands options real := by
  induction prog with
  | done a => exact Program.lands_done a
  | call c next ih =>
    intro s
    refine Program.obeys_alone_call ?_ (ih _ (h.2 _) _)
    cases c <;> first | exact h.1.elim | trivial

theorem Program.Obeys.onFilesAlone {prog : Program Files α} (h : prog.Obeys (landing real) post () s.fs) :
    (Session.onFiles prog).Obeys (landings options real) (fun _ _ _ => True) () s := by
  induction prog generalizing s with
  | done a => trivial
  | call c next ih =>
    obtain ⟨⟨⟩, hmay, -, hnext⟩ := h _ rfl trivial
    exact Program.obeys_alone_call (I := Session) (c := SessionCall.file c) hmay (ih _ hnext)

section Passes

variable (hnames : names.IsProper) (hroot : plan.root = names.toPath) (hreal : real.IsProper)
  (hrealRoot : plan.realRoot = real.toPath)

include hnames hroot hreal hrealRoot

theorem placeDirectory_lands (hp : sanitize plan.root e.path = .ok p) :
    (plan.placeDirectory failures p e).Lands options real := by
  rw [hroot] at hp
  obtain ⟨r, hproper, rfl⟩ := exists_destination_eq hnames hp
  unfold RunPlan.placeDirectory
  split
  · exact Program.lands_done _
  · unfold RunPlan.tryDirectory
    rw [hrealRoot]
    refine Program.Lands.bind (fun s => (createDirectory_landing hreal hproper).onFilesAlone) ?_
    rintro (err | _ | _)
    · refine Program.IsTacit.lands ?_
      show Program.IsTacit (if _ then _ else _)
      split
      · trivial
      · cases plan.options.stopOnFirstError with
        | true => exact ⟨trivial, fun _ => trivial⟩
        | false => trivial
    · exact Program.lands_done _
    · exact Program.lands_done _

omit hnames hroot hreal hrealRoot in
theorem keep_lands (hrest : (plan.directoryPass failures slots).Lands options real) :
    Program.Lands options real
      (do return (← plan.directoryPass failures slots).map fun (failures, slots) => (failures, slot :: slots)) :=
  Program.Lands.bind hrest fun _ => Program.lands_done _

theorem directoryPass_lands (hdestinations : ∀ slot ∈ slots, ∀ p, slot.destination = some p →
      sanitize plan.root slot.entry.path = .ok p) : (plan.directoryPass failures slots).Lands options real := by
  induction slots generalizing failures with
  | nil => exact Program.lands_done _
  | cons slot rest ih =>
    obtain ⟨hhead, hrest⟩ := List.forall_mem_cons.1 hdestinations
    rw [RunPlan.directoryPass]
    split
    · exact keep_lands (ih hrest)
    · split
      · exact keep_lands (ih hrest)
      · refine Program.Lands.bind isTacit_isHalted.lands fun halted => ?_
        cases halted with
        | true => exact Program.lands_done _
        | false =>
          simp only [Bool.false_eq_true, if_false]
          split
          · exact keep_lands (ih hrest)
          · next p hp =>
            refine Program.Lands.bind (placeDirectory_lands hnames hroot hreal hrealRoot (hhead p hp)) ?_
            rintro (err | ⟨o, made⟩)
            · exact Program.lands_done _
            · exact Program.Lands.bind (isTacit_entryDone plan _ _).lands fun _ => keep_lands (ih hrest)

omit hnames hroot hreal hrealRoot in
theorem blockFiles_lands : (plan.blockFiles failures slots).Lands options real := by
  induction slots with
  | nil => exact Program.lands_done _
  | cons slot rest ih =>
    rw [RunPlan.blockFiles]
    split
    · exact Program.Lands.bind ih fun _ => Program.lands_done _
    · exact Program.Lands.bind (isTacit_entryDone plan _ _).lands fun _ =>
        Program.Lands.bind ih fun _ => Program.lands_done _

theorem fileJob_lands (hdestinations : ∀ slot ∈ pending, ∀ p, slot.destination = some p →
      sanitize plan.root slot.entry.path = .ok p) (i : Nat) : (plan.fileJob image pending i).Lands options real := by
  unfold RunPlan.fileJob
  split
  · next e p outcome made hget =>
    have hp := hdestinations _ (List.mem_of_getElem? hget) p rfl
    rw [hroot] at hp
    have hspelled : Slot.IsSpelled ⟨e, some p, outcome, made⟩ p := exists_destination_eq hnames hp
    have hend : ∀ o : Outcome, Program.Lands options real (do
        plan.entryDone e.path (if o.isWritten then (image.content e).length else 0)
        return o) := fun o => Program.Lands.bind (isTacit_entryDone plan _ _).lands fun _ => Program.lands_done o
    unfold RunPlan.placeFile
    rw [hrealRoot]
    have hwrite : ∀ fs, (writeFile plan.options real.toPath p e (image.content e)).Obeys (landing real) (fun _ _ _ => True)
        () fs := fun _ => writeFile_landing hreal rfl hspelled (image.content e)
    refine Program.Lands.bind (fun s => (hwrite s.fs).onFilesAlone) ?_
    rintro (err | o)
    · exact Program.Lands.bind (isTacit_fileFailed plan err).lands hend
    · exact hend o
  · exact Program.lands_done _

end Passes

/-! ## The trace -/

/-- What a call of a run adds to the trace: it shows if it is one to the file system. -/
theorem RunState.exists_events_handler (options : ExtractOptions) (c : SessionCall) (s : RunState) : ∃ events,
    (handler options c s).2.trace = s.trace ++ events ∧
      ∀ c' fs, .call c' fs ∈ events → c = .file c' ∧ fs = s.fs := by
  cases c with
  | file c =>
    refine ⟨[.call c s.fs], rfl, fun c' fs hcall => ?_⟩
    cases List.mem_singleton.1 hcall
    exact ⟨rfl, rfl⟩
  | isCancelled =>
    refine ⟨[], ?_, nofun⟩
    rw [List.append_nil]
    exact (s.fs_lookAtToken options.cancelToken).2
  | announce p =>
    show ∃ events, (s.tell p options.onProgress).trace = s.trace ++ events ∧ _
    cases options.onProgress with
    | none => exact ⟨[], (List.append_nil _).symm, nofun⟩
    | some listener => exact ⟨[.told p], rfl, fun c' fs hcall => nomatch List.mem_singleton.1 hcall⟩
  | _ => exact ⟨[], (List.append_nil _).symm, nofun⟩

/-- The calls that the trace shows were made. -/
theorem Handler.Leads.exists_events (h : (RunState.handler options).Leads s log s') :
    ∃ events, s'.trace = s.trace ++ events ∧ ∀ c fs, .call c fs ∈ events → c ∈ fileCalls log := by
  induction h with
  | nil => exact ⟨[], (List.append_nil _).symm, nofun⟩
  | @snoc log t _ c ih =>
    obtain ⟨events, htrace, hevents⟩ := ih
    obtain ⟨more, hmore, hcalls⟩ := RunState.exists_events_handler options c t
    refine ⟨events ++ more, by rw [hmore, htrace, List.append_assoc], fun c' fs hcall => ?_⟩
    rw [fileCalls_append]
    rcases List.mem_append.1 hcall with hcall | hcall
    · exact List.mem_append_left _ (hevents c' fs hcall)
    · obtain ⟨rfl, -⟩ := hcalls c' fs hcall
      exact List.mem_append_right _ (List.mem_singleton_self c')

/-- From one state of a run to the other, calls changed nothing but what lies inside the real root. -/
def RunState.Lands (real : RealPath) (s s' : RunState) : Prop :=
  ∃ events, s'.trace = s.trace ++ events ∧ ∀ c fs, .call c fs ∈ events → c.LandsIn real fs

theorem RunState.Lands.refl (s : RunState) : s.Lands real s := ⟨[], (List.append_nil _).symm, nofun⟩

theorem RunState.Lands.trans (h : s.Lands real t) (h' : t.Lands real s') : s.Lands real s' := by
  obtain ⟨events, htrace, hevents⟩ := h
  obtain ⟨more, hmore, hmoreEvents⟩ := h'
  refine ⟨events ++ more, by rw [hmore, htrace, List.append_assoc], fun c fs hcall => ?_⟩
  exact (List.mem_append.1 hcall).elim (hevents c fs) (hmoreEvents c fs)

theorem RunState.lands_handler {c : SessionCall} (h : c.LandsIn real s) : s.Lands real (handler options c s).2 := by
  obtain ⟨events, htrace, hcalls⟩ := exists_events_handler options c s
  refine ⟨events, htrace, fun c' fs hcall => ?_⟩
  obtain ⟨rfl, rfl⟩ := hcalls c' fs hcall
  exact h

theorem Program.Lands.run {prog : Program Session α} (h : prog.Lands options real) {a : α}
    (hrun : prog.run (RunState.handler options) s = (a, s')) : s.Lands real s' := by
  have htrans : ∀ {t u v : RunState}, t.Lands real u → u.Lands real v → t.Lands real v := .trans
  have hlater := (h s).later RunState.Lands.refl htrans fun _ _ => RunState.lands_handler
  obtain ⟨-, ⟨-, hlands⟩, -⟩ := hlater.run trivial
  rwa [hrun] at hlands

/-! ## The run -/

section Run

variable (hplan : plan.options = options) (hone : options.workers ≤ 1) (hnames : names.IsProper)
  (hroot : plan.root = names.toPath) (hreal : real.IsProper) (hrealRoot : plan.realRoot = real.toPath)

include hplan hone hnames hroot hreal hrealRoot

/-- What a pool of one worker does lands inside, as what each of its jobs does. -/
theorem files_land (hdestinations : ∀ slot ∈ pending, ∀ p, slot.destination = some p →
      sanitize plan.root slot.entry.path = .ok p) {results : List (Option Outcome)}
    (h : plan.files schedule image pending s = (results, s')) : s.Lands real s' := by
  subst hplan
  have hkept : KeptInOrder (RunState.handler plan.options) Session.isHalted (plan.fileJob image pending) pending.length
      fun _ t => s.Lands real t :=
    ⟨fun _ _ hlands => hlands.trans (isTacit_isHalted.lands.run rfl), fun os _ hlands _ _ =>
      hlands.trans ((fileJob_lands hnames hroot hreal hrealRoot hdestinations os.length).run rfl)⟩
  obtain ⟨os, hlands, -⟩ := runBounded_in_order hkept schedule hone (RunState.Lands.refl s)
  rw [RunPlan.files] at h
  rwa [h] at hlands

theorem Passage.lands (c : Passage options plan schedule image slots s)
    (hopened : List.Forall₂ (fun e slot => Slot.Opened plan.root e slot) entries slots) :
    s.Lands real c.afterFiles := by
  have hslots : ∀ slot ∈ slots, ∀ p, slot.destination = some p → sanitize plan.root slot.entry.path = .ok p := by
    intro slot hslot p hp
    obtain ⟨e, -, hslot⟩ := exists_of_forall₂ hopened hslot
    exact hslot.destination hp
  refine ((directoryPass_lands hnames hroot hreal hrealRoot hslots).run c.pass).trans
    ((blockFiles_lands.run c.block).trans ?_)
  refine files_land hplan hone hnames hroot hreal hrealRoot (fun slot hslot p hp => ?_) c.files
  exact (c.destination_iff_of_waiting hopened (List.mem_filter.1 hslot).1).1 hp

end Run

/-- The call sets the recorded mode of one of these entries, a directory, at its destination. -/
def FileCall.SetsRecordedMode (root : Path) (entries : List Entry) (c : FileCall) : Prop :=
  ∃ e ∈ entries, e.isFile = false ∧ ∃ p mode, sanitize root e.path = .ok p ∧ e.mode = some mode ∧ c = .setMode p mode

/-- The last pass sets modes and does nothing else. -/
theorem Course.exists_finishing {report : Report} {root : Path}
    (c : Course options plan schedule image slots s report s')
    (hopened : List.Forall₂ (fun e slot => Slot.Opened root e slot) entries slots) :
    ∃ events, s'.trace = c.afterFiles.trace ++ events ∧
      ∀ call fs, .call call fs ∈ events → call.SetsRecordedMode root entries := by
  obtain ⟨log, hleads, hends⟩ := c.finishing
  obtain ⟨events, htrace, hcalls⟩ := hleads.exists_events
  have hlooked : c.atEnd.lookAtToken options.cancelToken = (c.cancelled, s') := c.looked
  have hlast := (c.atEnd.fs_lookAtToken options.cancelToken).2
  rw [hlooked] at hlast
  refine ⟨events, hlast.trans htrace, fun call fs hcall => ?_⟩
  obtain ⟨slot, hslot, hmade, p, mode, hp, hmode, rfl⟩ := (finishDirectories_ends hends).2.2 call (hcalls call fs hcall)
  obtain ⟨waiting, hwaiting, hentry, -, hsame⟩ := c.exists_waiting hslot
  refine ⟨slot.entry, ?_, ?_, p, mode, (c.destination_iff hopened hslot).1 hp, hmode, rfl⟩
  · rw [hentry, ← c.map_entry_waiting hopened]
    exact List.mem_map_of_mem hwaiting
  · rw [hentry]
    exact (c.beforePool hopened waiting hwaiting).made (hsame ▸ hmade)

/-- **Up to its last pass, what a run changes lies inside the root**, whatever its listener does between two entries.
    After the preparation, which tells the real root, the calls of a run with one worker change nothing but what lies
    strictly inside the real root at that moment. In the end the run sets recorded modes at the destinations of
    directory entries. -/
theorem extract_lands (hone : options.workers ≤ 1) (schedule : List Nat) (image : Image) (target : Option Path)
    (fs : FileSystem) {result : Except ExtractError Report} {s : RunState}
    (h : extract options schedule image target (.start fs options) = (result, s)) :
    let prepared := (prepare options fs.cwd.toPath fs.executable image target).run (RunState.handler options)
      (.start fs options)
    (∃ err, prepared = (.error err, s)) ∨
    ∃ (plan : RunPlan) (slots : List Slot) (t : RunState) (real : RealPath) (working finishing : List Event),
      prepared = (.ok (plan, slots), t) ∧ t.fs.LeadsTo plan.root real ∧ plan.realRoot = real.toPath ∧
      s.trace = t.trace ++ working ++ finishing ∧
      (∀ c fs', .call c fs' ∈ working → c.LandsIn real fs') ∧
      ∀ c fs', .call c fs' ∈ finishing → c.SetsRecordedMode plan.root (image.manifest.select options.filter) := by
  intro prepared
  obtain ⟨err, hprepared, -⟩ | ⟨plan, slots, t, hprepared, -, -, hslots, -, hexecute⟩ := extract_cases h
  · exact .inl ⟨err, hprepared⟩
  · obtain ⟨root, realRoot, hroot, -, rfl, hprepareRoot⟩ := run_prepare_eq_ok hprepared
    obtain ⟨names, hnames, rfl⟩ := resolveRoot_eq_ok hroot
    obtain ⟨-, hreal, -⟩ := (prepareRoot_obeys hnames).run trivial
    rw [hprepareRoot] at hreal
    obtain ⟨real, hleads, rfl⟩ := hreal realRoot rfl
    have hproper : real.IsProper := isProper_of_resolve hnames hleads.1
    have hopened := slotsFor_opened hslots
    have hlands : ∀ c : Passage options (planFor options names.toPath real.toPath slots) schedule image slots t,
        t.Lands real c.afterFiles := fun c => c.lands rfl hone hnames rfl hproper rfl hopened
    refine .inr ⟨planFor options names.toPath real.toPath slots, slots, t, real, ?_⟩
    cases result with
    | ok report =>
      obtain ⟨c⟩ := exists_course rfl hexecute
      obtain ⟨working, hworking, hinside⟩ := hlands c.toPassage
      obtain ⟨finishing, hfinishing, hsets⟩ := c.exists_finishing hopened
      exact ⟨working, finishing, hprepared, hleads, rfl, by rw [hfinishing, hworking], hinside, hsets⟩
    | error err =>
      have hworked : t.Lands real s := by
        obtain ⟨err, hpass, -⟩ | ⟨c, ⟨cause, -, rfl, -⟩ | ⟨-, report, heq, -⟩⟩ := RunPlan.execute_cases rfl hexecute
        · refine (directoryPass_lands hnames rfl hproper rfl (fun slot hslot p hp => ?_)).run hpass
          obtain ⟨e, -, hslot⟩ := exists_of_forall₂ hopened hslot
          exact hslot.destination hp
        · exact hlands c
        · cases heq
      obtain ⟨working, hworking, hinside⟩ := hworked
      exact ⟨working, [], hprepared, hleads, rfl, by rw [hworking, List.append_nil], hinside, nofun⟩

/-- Whoever listens puts a link out of the root in the place of a directory when the first file is done. The other file
    is not written through it. -/
theorem extract_lands_before_link :
    let listener : ProgressListener := fun p fs =>
      (if p.current = "a" then (fs.eraseTree [utf8 "out", utf8 "d"]).put [utf8 "out", utf8 "d"] (.symlink (utf8 "../away"))
        else fs, false)
    let options : ExtractOptions := { workers := 1, onProgress := some listener }
    let image : Image := .written
      ⟨[.directory "d" none, .file "a" 0 1 (.of [120]) none, .file "d/f" 0 0 (.of []) none]⟩ [120]
    let fs := rootWith [([utf8 "away"], .directory 0o755)]
    options.workers ≤ 1 ∧
      ∃ s, extract options [] image (some (.ofString "/out")) (.start fs options) =
          (.error (.aborted (.escape "d/f" (.ofString "/away")) ["a"]), s) ∧
        ∃ (t : RunState) (real : RealPath) (working finishing : List Event), real.toPath = .ofString "/out" ∧
          s.trace = t.trace ++ working ++ finishing ∧ (∀ c fs', .call c fs' ∈ working → c.LandsIn real fs') ∧
          ∀ c fs', .call c fs' ∈ finishing → c.SetsRecordedMode (.ofString "/out") image.manifest.entries := by
  intro listener options image fs
  have hresult : (extract options [] image (some (.ofString "/out")) (.start fs options)).1 =
      .error (.aborted (.escape "d/f" (.ofString "/away")) ["a"]) := by decide +kernel
  have hplanned : ((prepare options fs.cwd.toPath fs.executable image (some (.ofString "/out"))).run
      (RunState.handler options) (.start fs options)).1.toOption.map (fun p => (p.1.root, p.1.realRoot)) =
      some (.ofString "/out", .ofString "/out") := by decide +kernel
  obtain ⟨s, hrun⟩ : ∃ s, extract options [] image (some (.ofString "/out")) (.start fs options) =
      (.error (.aborted (.escape "d/f" (.ofString "/away")) ["a"]), s) := ⟨_, Prod.ext hresult rfl⟩
  refine ⟨by decide, s, hrun, ?_⟩
  obtain ⟨err, hprepared⟩ | ⟨plan, slots, t, real, working, finishing, hprepared, -, hreal, htrace, hinside, hsets⟩ :=
    extract_lands (by decide) [] image (some (.ofString "/out")) fs hrun
  · rw [hprepared] at hplanned
    cases hplanned
  · rw [hprepared] at hplanned
    obtain ⟨hroot, hrealRoot⟩ := Prod.mk.inj (Option.some.inj hplanned)
    rw [hroot] at hsets
    exact ⟨t, real, working, finishing, hreal.symm.trans hrealRoot, htrace, hinside, hsets⟩

/-- The call changes what stands at the place. -/
def Event.changes (q : RealPath) : Event → Bool
  | call c fs => (fs.answer c).2.get? q != fs.get? q
  | told _ => false

/-- Whoever listens does so when the last file is done. The mode of the directory is then set outside of the root, and
    the run reports success. -/
theorem extract_sets_mode_outside :
    let listener : ProgressListener := fun p fs =>
      (if p.current = "d/f" then (fs.eraseTree [utf8 "out", utf8 "d"]).put [utf8 "out", utf8 "d"] (.symlink (utf8 "../away"))
        else fs, false)
    let options : ExtractOptions := { strict := false, workers := 1, onProgress := some listener }
    let image : Image := .written ⟨[.directory "d" (some 0o700), .file "d/f" 0 1 (.of [120]) none]⟩ [120]
    let fs := rootWith [([utf8 "away"], .directory 0o755)]
    Image.parse image.source = .ok image ∧
      ∃ report s, extract options [] image (some (.ofString "/out")) (.start fs options) = (.ok report, s) ∧
        report.entries = [⟨"d", .directory, .created⟩, ⟨"d/f", .file, .created⟩] ∧
        s.fs.get? [utf8 "away"] = some (.directory 0o700) ∧
        ¬∀ c fs', .call c fs' ∈ s.trace → ∀ q, (fs'.answer c).2.get? q ≠ fs'.get? q → [utf8 "out"] <+: q := by
  intro listener options image fs
  have hvalid : ∀ d : Digest, Manifest.validate ⟨[.directory "d" (some 0o700), .file "d/f" 0 1 d none]⟩ 1 = .ok () := by
    intro d
    cbv
  have hparse : Image.parse image.source = .ok image :=
    Image.parse_written (by decide) (by decide) (hvalid _) (by decide)
  have hentries : (extract options [] image (some (.ofString "/out")) (.start fs options)).1.toOption.map
      (fun r => (r.target, r.entries)) = some (.ofString "/out",
        [⟨"d", .directory, .created⟩, ⟨"d/f", .file, .created⟩]) := by decide +kernel
  have hmode : (extract options [] image (some (.ofString "/out")) (.start fs options)).2.fs.get? [utf8 "away"] =
      some (.directory 0o700) := by decide +kernel
  have hcall : (extract options [] image (some (.ofString "/out")) (.start fs options)).2.trace.any
      (·.changes [utf8 "away"]) = true := by decide +kernel
  obtain ⟨report, hrun, -, hlist⟩ := exists_entries hentries
  refine ⟨hparse, report, _, hrun, hlist, hmode, fun hall => ?_⟩
  obtain ⟨event, hevent, hchanged⟩ := List.any_eq_true.1 hcall
  cases event with
  | call c fs' => exact absurd (hall c fs' hevent [utf8 "away"] (bne_iff_ne.1 hchanged)) (by decide)
  | told p => cases hchanged

end TreeImage
