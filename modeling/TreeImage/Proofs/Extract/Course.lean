import TreeImage.Proofs.Extract.DirectoryResults
import TreeImage.Proofs.Extract.Ledger
import TreeImage.Proofs.Extract.Preparation

set_option autoImplicit false

/-! # The course of a run

Whatever its listener does, and whoever cancels it, a run that ends in a report went through all its passes. The
directory pass deals with the slots one after the other (`DirectoryRun`), blocked files are failed, the pool deals
with those that are pending, and directories that were made get their modes last. `Course` keeps the states and
slots in between, and `exists_course` finds them for every report. -/

namespace TreeImage

variable {options : ExtractOptions} {plan : RunPlan} {image : Image} {schedule : List Nat} {s s' t u : RunState}
  {failures failures' : RunPlan.Failures} {slot slot' : Slot} {slots slots' rest rest' : List Slot}
  {results : List (Option Outcome)} {o : Outcome}

/-! ## The directory pass -/

/-- How the directory pass deals with one slot. -/
inductive DirectoryStep (options : ExtractOptions) (plan : RunPlan) (failures : RunPlan.Failures) :
    Slot → RunState → RunPlan.Failures → Slot → RunState → Prop
  | file {slot : Slot} {s : RunState} (hfile : slot.entry.isFile = true) :
      DirectoryStep options plan failures slot s failures slot s
  | decided {slot : Slot} {s : RunState} {o : Outcome} (hdirectory : slot.entry.isFile = false)
      (ho : slot.outcome = some o) :
      DirectoryStep options plan failures slot s (failures.note slot.entry o) slot s
  | unplaced {slot : Slot} {s t : RunState} (hdirectory : slot.entry.isFile = false) (hopen : slot.outcome = none)
      (hnowhere : slot.destination = none)
      (hlook : Session.isHalted.run (RunState.handler options) s = (false, t)) :
      DirectoryStep options plan failures slot s failures slot t
  | placed {slot : Slot} {s t u : RunState} {p : Path} {o : Outcome} {made : Bool} {log log' : List (Exchange Session)}
      (hdirectory : slot.entry.isFile = false) (hopen : slot.outcome = none) (hp : slot.destination = some p)
      (hlook : Session.isHalted.run (RunState.handler options) s = (false, t))
      (hplace : (plan.placeDirectory failures p slot.entry).Ends (RunState.handler options) log (.ok (o, made)))
      (hdone : (plan.entryDone slot.entry.path 0).Ends (RunState.handler options) log' ())
      (hleads : (RunState.handler options).Leads t (log ++ log') u) :
      DirectoryStep options plan failures slot s (failures.note slot.entry o)
        { slot with outcome := some o, made := made } u

/-- How the directory pass deals with one slot after the other, until the run is halted. -/
inductive DirectoryRun (options : ExtractOptions) (plan : RunPlan) :
    RunPlan.Failures → List Slot → RunState → RunPlan.Failures → List Slot → RunState → Prop
  | nil {failures : RunPlan.Failures} {s : RunState} : DirectoryRun options plan failures [] s failures [] s
  | halted {failures : RunPlan.Failures} {slot : Slot} {rest : List Slot} {s t : RunState}
      (hdirectory : slot.entry.isFile = false) (hopen : slot.outcome = none)
      (hlook : Session.isHalted.run (RunState.handler options) s = (true, t)) :
      DirectoryRun options plan failures (slot :: rest) s failures (slot :: rest) t
  | cons {failures failures₁ failures' : RunPlan.Failures} {slot slot' : Slot} {rest rest' : List Slot}
      {s t s' : RunState} (hstep : DirectoryStep options plan failures slot s failures₁ slot' t)
      (hrest : DirectoryRun options plan failures₁ rest t failures' rest' s') :
      DirectoryRun options plan failures (slot :: rest) s failures' (slot' :: rest') s'

theorem directoryRun_of_run (h : (plan.directoryPass failures slots).run (RunState.handler options) s =
    (.ok (failures', slots'), s')) : DirectoryRun options plan failures slots s failures' slots' s' := by
  induction slots generalizing failures s slots' with
  | nil =>
    cases h
    exact .nil
  | cons slot rest ih =>
    rw [RunPlan.directoryPass] at h
    change Program.run _ (if slot.entry.isFile then _ else _) s = _ at h
    cases hfile : slot.entry.isFile with
    | true =>
      rw [hfile] at h
      obtain ⟨rest', rfl, hrest⟩ := run_keep h
      exact .cons (.file hfile) (ih hrest)
    | false =>
      rw [hfile, if_neg Bool.false_ne_true] at h
      cases hopen : slot.outcome with
      | some o =>
        rw [hopen] at h
        obtain ⟨rest', rfl, hrest⟩ := run_keep h
        exact .cons (.decided hfile hopen) (ih hrest)
      | none =>
        rw [hopen] at h
        replace h := (Program.run_bind _ _ _ _).symm.trans h
        rcases hlook : Session.isHalted.run (RunState.handler options) s with ⟨halted, t⟩
        rw [hlook] at h
        cases halted with
        | true =>
          cases h
          exact .halted hfile hopen hlook
        | false =>
          cases hp : slot.destination with
          | none =>
            rw [hp] at h
            obtain ⟨rest', rfl, hrest⟩ := run_keep h
            exact .cons (.unplaced hfile hopen hp hlook) (ih hrest)
          | some p =>
            rw [hp] at h
            replace h := (Program.run_bind _ _ _ _).symm.trans h
            obtain ⟨log, hplace, hleads⟩ := Program.exists_ends (RunState.handler options)
              (plan.placeDirectory failures p slot.entry) t
            rcases hplaced : (plan.placeDirectory failures p slot.entry).run (RunState.handler options) t with
              ⟨_ | ⟨o, made⟩, u⟩
            · rw [hplaced] at h
              cases h
            · rw [hplaced] at h hplace hleads
              replace h := (Program.run_bind _ _ _ _).symm.trans h
              obtain ⟨log', hdone, hleads'⟩ := Program.exists_ends (RunState.handler options)
                (plan.entryDone slot.entry.path 0) u
              obtain ⟨rest', rfl, hrest⟩ := run_keep h
              rw [← hp]
              exact .cons (.placed hfile hopen hp hlook hplace hdone (hleads.append hleads')) (ih hrest)

/-- Whether the entry of a slot failed. -/
def Slot.hasFailed (slot : Slot) : Bool := slot.outcome.any (·.isFailed)

theorem Slot.decided_of_hasFailed (h : slot.hasFailed = true) : slot.outcome ≠ none := by
  intro hopen
  rw [hasFailed, hopen] at h
  cases h

theorem Slot.isFailed_report (slot : Slot) : slot.report.outcome.isFailed = slot.hasFailed := by
  rw [Slot.report, Slot.hasFailed]
  cases slot.outcome <;> rfl

/-- What the directory pass makes of a slot: it settles those of directories that were open, and only one whose
    directory it made is created. -/
inductive Slot.Settles : Slot → Slot → Prop
  | same {slot : Slot} : Settles slot slot
  | settled {slot : Slot} {o : Outcome} {made : Bool} (hdirectory : slot.entry.isFile = false)
      (hopen : slot.outcome = none) (hmade : made = true → o = .created)
      (ho : o = .created ∨ o = .skippedUnchanged ∨ o.isFailed = true) :
      Settles slot { slot with outcome := some o, made := made }

theorem DirectoryStep.settles (h : DirectoryStep options plan failures slot s failures' slot' s') :
    slot.Settles slot' := by
  cases h with
  | placed hdirectory hopen _ _ hplace =>
    obtain ⟨hmade, ho, -⟩ := placeDirectory_ends hplace
    exact .settled hdirectory hopen hmade ho
  | _ => exact .same

theorem DirectoryRun.settles (h : DirectoryRun options plan failures slots s failures' slots' s') :
    List.Forall₂ Slot.Settles slots slots' := by
  induction h with
  | nil => exact .nil
  | halted => exact List.forall₂_same.2 fun _ _ => .same
  | cons hstep _ ih => exact .cons hstep.settles ih

/-! ### What is entered in the ledger -/

/-- A look is a dialogue without marks and without calls to the file system. -/
theorem exists_leads_of_look {halted : Bool} (h : Session.isHalted.run (RunState.handler options) s = (halted, s')) :
    ∃ log, (RunState.handler options).Leads s log s' ∧ marks log = [] ∧ fileCalls log = [] := by
  obtain ⟨log, hends, hleads⟩ := Program.exists_ends (RunState.handler options) Session.isHalted s
  rw [h] at hleads
  exact ⟨log, hleads, (isHalted_ends hends).1, (isHalted_ends hends).2.1⟩

/-- The marks of the directory pass: no bytes are written, and a run is stopped only where it is to stop and the
    directory of one of these slots failed. -/
def DirectoryMark (plan : RunPlan) (slots : List Slot) (m : Mark) : Prop :=
  m = .wrote 0 ∨ m = .stop ∧ plan.options.stopOnFirstError = true ∧ ∃ slot ∈ slots, slot.hasFailed = true

theorem DirectoryMark.mono {m : Mark} (h : DirectoryMark plan slots m) (hsub : slots ⊆ slots') :
    DirectoryMark plan slots' m := by
  obtain hwrote | ⟨hstop, hfirst, slot, hslot, hfailed⟩ := h
  · exact .inl hwrote
  · exact .inr ⟨hstop, hfirst, slot, hsub hslot, hfailed⟩

theorem DirectoryStep.exists_leads (h : DirectoryStep options plan failures slot s failures' slot' s') :
    ∃ log, (RunState.handler options).Leads s log s' ∧ ∀ m ∈ marks log, DirectoryMark plan [slot'] m := by
  cases h with
  | placed hdirectory hopen _ hlook hplace hdone hleads =>
    obtain ⟨before, hbefore, hnone, -⟩ := exists_leads_of_look hlook
    obtain ⟨-, -, hplaced⟩ := placeDirectory_ends hplace
    refine ⟨_, hbefore.append hleads, ?_⟩
    rw [marks_append, marks_append, hnone, (entryDone_ends hdone).1]
    rintro m (hm : m ∈ marks _ ++ [Mark.wrote 0])
    rcases List.mem_append.1 hm with hm | hm
    · rcases hplaced with ⟨-, -, rfl⟩ | ⟨-, hmarks, -⟩
      · cases hm
      · rw [hmarks] at hm
        split at hm
        · next hstop =>
          rw [Bool.and_eq_true] at hstop
          exact .inr ⟨List.mem_singleton.1 hm, hstop.2, _, List.mem_singleton_self _, hstop.1⟩
        · cases hm
    · exact .inl (List.mem_singleton.1 hm)
  | unplaced _ _ _ hlook =>
    obtain ⟨log, hleads, hnone, -⟩ := exists_leads_of_look hlook
    exact ⟨log, hleads, by rw [hnone]; nofun⟩
  | _ => exact ⟨[], .nil, nofun⟩

theorem DirectoryRun.exists_leads (h : DirectoryRun options plan failures slots s failures' slots' s') :
    ∃ log, (RunState.handler options).Leads s log s' ∧ ∀ m ∈ marks log, DirectoryMark plan slots' m := by
  induction h with
  | nil => exact ⟨[], .nil, nofun⟩
  | halted _ _ hlook =>
    obtain ⟨log, hleads, hnone, -⟩ := exists_leads_of_look hlook
    exact ⟨log, hleads, by rw [hnone]; nofun⟩
  | cons hstep _ ih =>
    obtain ⟨first, hfirst, hmarks⟩ := hstep.exists_leads
    obtain ⟨after, hafter, hmarks'⟩ := ih
    refine ⟨_, hfirst.append hafter, ?_⟩
    rw [marks_append]
    intro m hm
    rcases List.mem_append.1 hm with hm | hm
    · exact (hmarks m hm).mono (List.cons_subset.2 ⟨List.mem_cons_self, List.nil_subset _⟩)
    · exact (hmarks' m hm).mono (List.subset_cons_self _ _)

/-- A directory that has somewhere to go is left open only if the run is halted. -/
theorem DirectoryRun.halts_of_open (h : DirectoryRun options plan failures slots s failures' slots' s') :
    ∀ slot ∈ slots', slot.entry.isFile = false → slot.outcome = none → slot.destination ≠ none → s'.Halts options := by
  induction h with
  | nil => exact fun slot hslot => absurd hslot List.not_mem_nil
  | halted _ _ hlook => exact fun _ _ _ _ _ => (run_isHalted_iff hlook).1.2 rfl
  | cons hstep _ ih =>
    refine List.forall_mem_cons.2 ⟨?_, ih⟩
    intro hdirectory hopen hplaced
    cases hstep with
    | file hfile => exact absurd (hfile.symm.trans hdirectory) nofun
    | decided _ ho => exact absurd (ho.symm.trans hopen) nofun
    | unplaced _ _ hnowhere => exact absurd hnowhere hplaced
    | placed => cases hopen

/-! ## Blocked files -/

/-- What blocking makes of a slot: an open file fails if its parent directory failed. -/
def Slot.under (failures : RunPlan.Failures) (slot : Slot) : Slot :=
  match if slot.entry.isFile && slot.outcome.isNone then RunPlan.blocked? failures slot.entry else none with
  | none => slot
  | some o => { slot with outcome := some o }

theorem run_blockFiles_eq (h : (plan.blockFiles failures slots).run (RunState.handler options) s = (slots', s')) :
    slots' = slots.map (·.under failures) ∧ ∃ log, (RunState.handler options).Leads s log s' ∧
      (∀ m ∈ marks log, m = .wrote 0) ∧ fileCalls log = [] := by
  induction slots generalizing s slots' with
  | nil =>
    cases h
    exact ⟨rfl, [], .nil, nofun, rfl⟩
  | cons slot rest ih =>
    rw [RunPlan.blockFiles] at h
    rw [List.map_cons, Slot.under]
    cases hblocked : (if slot.entry.isFile && slot.outcome.isNone then
      RunPlan.blocked? failures slot.entry else none) with
    | none =>
      rw [hblocked] at h
      replace h := (Program.run_bind _ _ _ _).symm.trans h
      cases hrun : (plan.blockFiles failures rest).run (RunState.handler options) s with
      | mk rest' t =>
        rw [hrun] at h
        cases h
        obtain ⟨rfl, hlog⟩ := ih hrun
        exact ⟨rfl, hlog⟩
    | some o =>
      rw [hblocked] at h
      replace h := (Program.run_bind _ _ _ _).symm.trans h
      obtain ⟨first, hdone, hfirst⟩ := Program.exists_ends (RunState.handler options)
        (plan.entryDone slot.entry.path 0) s
      obtain ⟨hwrote, hcalls⟩ := entryDone_ends hdone
      generalize (plan.entryDone slot.entry.path 0).run (RunState.handler options) s = t at h hfirst
      replace h := (Program.run_bind _ _ _ _).symm.trans h
      cases hrun : (plan.blockFiles failures rest).run (RunState.handler options) t.2 with
      | mk rest' u =>
        rw [hrun] at h
        cases h
        obtain ⟨rfl, after, hafter, hwrote', hcalls'⟩ := ih hrun
        refine ⟨rfl, _, hfirst.append hafter, ?_, ?_⟩
        · rw [marks_append, hwrote]
          exact List.forall_mem_cons.2 ⟨rfl, hwrote'⟩
        · rw [fileCalls_append, hcalls, hcalls']
          rfl

/-! ## Modes of directories -/

/-- What finishing makes of a slot: where a directory was made, its mode may be refused. -/
def Slot.Finishes (slot slot' : Slot) : Prop :=
  slot' = slot ∨ slot.made = true ∧ ∃ p e, slot.destination = some p ∧
    slot' = { slot with outcome := some (.ofError (.fs (.permissions p e))) }

/-- The report tells that the mode of a directory was refused. That is found out last, after the directory was made and
    filled. -/
def EntryReport.ModeRefused (root : Path) (r : EntryReport) : Prop :=
  r.kind = .directory ∧ ∃ p e, sanitize root r.path = .ok p ∧ r.outcome = .ofError (.fs (.permissions p e))

theorem applyMode_ends {p : Path} {mode : UInt32} {asked : List (Exchange Files)} {result : Except FsError Unit}
    (h : (applyMode p mode).Ends FileSystem.answer asked result) :
    (∀ x ∈ asked, x.1 = .setMode p mode) ∧ (result = .ok () ∨ ∃ e, result = .error (.permissions p e)) := by
  obtain ⟨fs, rest, rfl, hrest⟩ := Program.ends_call_iff.1 h
  rcases hreply : (FileSystem.answer (.setMode p mode) fs).1 with e | ⟨⟩
  · rw [hreply] at hrest
    obtain ⟨rfl, rfl⟩ := Program.ends_done_iff.1 hrest
    exact ⟨List.forall_mem_singleton.2 rfl, .inr ⟨e, rfl⟩⟩
  · rw [hreply] at hrest
    obtain ⟨rfl, rfl⟩ := Program.ends_done_iff.1 hrest
    exact ⟨List.forall_mem_singleton.2 rfl, .inl rfl⟩

theorem finishDirectory_ends {log : List (Exchange Session)}
    (h : (RunPlan.finishDirectory slot).Ends (RunState.handler options) log slot') :
    slot.Finishes slot' ∧ marks log = [] ∧ ∀ c ∈ fileCalls log, slot.made = true ∧
      ∃ p mode, slot.destination = some p ∧ slot.entry.mode = some mode ∧ c = .setMode p mode := by
  rw [RunPlan.finishDirectory] at h
  split at h
  · next mode p hmade hmode hp =>
    obtain ⟨result, first, rest, rfl, hfirst, hrest⟩ := Program.ends_bind_iff.1 h
    obtain ⟨asked, happly, rfl⟩ := onFiles_ends hfirst
    clear h hfirst
    obtain ⟨hasked, hresult⟩ := applyMode_ends happly
    have hcalls : ∀ c ∈ fileCalls (asked.map onFile ++ []), slot.made = true ∧
        ∃ p mode, slot.destination = some p ∧ slot.entry.mode = some mode ∧ c = .setMode p mode := by
      rw [List.append_nil]
      intro c hc
      obtain ⟨x, hx, rfl⟩ := mem_fileCalls_map_onFile.1 hc
      exact ⟨hmade, p, mode, hp, hmode, hasked x hx⟩
    have hmarks : marks (asked.map onFile ++ []) = [] := by rw [List.append_nil, marks_map_onFile]
    rcases hresult with rfl | ⟨e, rfl⟩
    · obtain ⟨rfl, rfl⟩ := Program.ends_done_iff.1 hrest
      exact ⟨.inl rfl, hmarks, hcalls⟩
    · obtain ⟨rfl, rfl⟩ := Program.ends_done_iff.1 hrest
      exact ⟨.inr ⟨hmade, p, e, hp, rfl⟩, hmarks, hcalls⟩
  · obtain ⟨rfl, rfl⟩ := Program.ends_done_iff.1 h
    exact ⟨.inl rfl, rfl, List.forall_mem_nil _⟩

theorem finishDirectories_ends {log : List (Exchange Session)}
    (h : (RunPlan.finishDirectories slots).Ends (RunState.handler options) log slots') :
    List.Forall₂ Slot.Finishes slots slots' ∧ marks log = [] ∧ ∀ c ∈ fileCalls log, ∃ slot ∈ slots, slot.made = true ∧
      ∃ p mode, slot.destination = some p ∧ slot.entry.mode = some mode ∧ c = .setMode p mode := by
  induction slots generalizing log slots' with
  | nil =>
    obtain ⟨rfl, rfl⟩ := Program.ends_done_iff.1 h
    exact ⟨.nil, rfl, nofun⟩
  | cons slot rest ih =>
    obtain ⟨rest', first, after, rfl, hrest, hlast⟩ := Program.ends_bind_iff.1 h
    obtain ⟨slot', second, last, rfl, hslot, hdone⟩ := Program.ends_bind_iff.1 hlast
    obtain ⟨rfl, rfl⟩ := Program.ends_done_iff.1 hdone
    obtain ⟨hfinished, hmarks, hcalls⟩ := ih hrest
    obtain ⟨hfinishes, hmarks', hcalls'⟩ := finishDirectory_ends hslot
    refine ⟨.cons hfinishes hfinished, ?_, ?_⟩
    · rw [List.append_nil, marks_append, hmarks, hmarks']
      rfl
    · rw [List.append_nil, fileCalls_append]
      intro c hc
      rcases List.mem_append.1 hc with hc | hc
      · obtain ⟨slot, hslot, hmade⟩ := hcalls c hc
        exact ⟨slot, List.mem_cons_of_mem _ hslot, hmade⟩
      · exact ⟨slot, List.mem_cons_self, hcalls' c hc⟩

/-! ## The whole run -/

/-- The passes of a run up to its files: what the directory pass left, what is pending then, and the results of the
    pool, with the states after each of them. -/
structure Passage (options : ExtractOptions) (plan : RunPlan) (schedule : List Nat) (image : Image) (slots : List Slot)
    (s : RunState) where
  failures : RunPlan.Failures
  placed : List Slot
  results : List (Option Outcome)
  afterDirectories : RunState
  atFiles : RunState
  afterFiles : RunState
  pass : (plan.directoryPass [] slots).run (RunState.handler options) s = (.ok (failures, placed), afterDirectories)
  block : (plan.blockFiles failures placed).run (RunState.handler options) afterDirectories =
    (placed.map (·.under failures), atFiles)
  files : plan.files schedule image ((placed.map (·.under failures)).filter (·.isPending)) atFiles = (results, afterFiles)

theorem Passage.directories (c : Passage options plan schedule image slots s) :
    DirectoryRun options plan [] slots s c.failures c.placed c.afterDirectories :=
  directoryRun_of_run c.pass

theorem Passage.blocking (c : Passage options plan schedule image slots s) :
    ∃ log, (RunState.handler options).Leads c.afterDirectories log c.atFiles ∧ (∀ m ∈ marks log, m = .wrote 0) ∧
      fileCalls log = [] :=
  (run_blockFiles_eq c.block).2

/-- The slots of a run before the pool. -/
def Passage.waiting (c : Passage options plan schedule image slots s) : List Slot := c.placed.map (·.under c.failures)

/-- Where the passes over directories end with slots, the run goes on to its files. -/
theorem exists_passage {waiting : List Slot}
    (h : (plan.directories slots).run (RunState.handler options) s = (.ok waiting, t)) (schedule : List Nat)
    (image : Image) : ∃ c : Passage options plan schedule image slots s, c.waiting = waiting ∧ c.atFiles = t := by
  rcases hpass : (plan.directoryPass [] slots).run (RunState.handler options) s with ⟨_ | ⟨failures, placed⟩, s₁⟩
  · cases (Program.run_bind_of_run hpass _).symm.trans h
  · rcases hblock : (plan.blockFiles failures placed).run (RunState.handler options) s₁ with ⟨blocked, t'⟩
    cases ((Program.run_bind_of_run hpass _).trans (Program.run_bind_of_run hblock _)).symm.trans h
    obtain ⟨rfl, -⟩ := run_blockFiles_eq hblock
    exact ⟨⟨failures, placed, _, s₁, t, _, hpass, hblock, rfl⟩, rfl, rfl⟩

/-- The course of a run from the slots to the report: its passes, and after them the modes of the directories and a last
    look. -/
structure Course (options : ExtractOptions) (plan : RunPlan) (schedule : List Nat) (image : Image) (slots : List Slot)
    (s : RunState) (report : Report) (s' : RunState) extends Passage options plan schedule image slots s where
  finished : List Slot
  cancelled : Bool
  atEnd : RunState
  fatal : afterFiles.fatal = none
  finishing : ∃ log, (RunState.handler options).Leads afterFiles log atEnd ∧
    (RunPlan.finishDirectories (RunPlan.assignResults (placed.map (·.under failures)) results)).Ends
      (RunState.handler options) log finished
  looked : Session.isCancelled.run (RunState.handler options) atEnd = (cancelled, s')
  report : report = .new plan.root (finished.map (·.report)) afterFiles.bytesWritten cancelled

theorem exists_finished {bytesWritten : Nat} {report : Report}
    (h : (plan.conclude slots bytesWritten).run (RunState.handler options) s = (report, s')) :
    ∃ finished cancelled t, (∃ log, (RunState.handler options).Leads s log t ∧
        (RunPlan.finishDirectories slots).Ends (RunState.handler options) log finished) ∧
      Session.isCancelled.run (RunState.handler options) t = (cancelled, s') ∧
      report = .new plan.root (finished.map (·.report)) bytesWritten cancelled := by
  obtain ⟨log, hends, hleads⟩ := Program.exists_ends (RunState.handler options) (RunPlan.finishDirectories slots) s
  replace h := (Program.run_bind _ _ _ _).symm.trans h
  generalize (RunPlan.finishDirectories slots).run (RunState.handler options) s = finishing at h hends hleads
  obtain ⟨finished, t⟩ := finishing
  replace h := (Program.run_bind _ _ _ _).symm.trans h
  rcases hlooked : Session.isCancelled.run (RunState.handler options) t with ⟨cancelled, u⟩
  rw [hlooked] at h
  cases h
  exact ⟨finished, cancelled, t, ⟨log, hleads, hends⟩, hlooked, rfl⟩

/-- How the passes of a run end: the directory pass with an error, or the file pass with one that is fatal, or the run
    comes to its report. -/
theorem RunPlan.execute_cases {result : Except ExtractError Report} (hplan : plan.options = options)
    (h : plan.execute schedule image slots s = (result, s')) :
    (∃ err, (plan.directoryPass [] slots).run (RunState.handler options) s = (.error err, s') ∧ result = .error err) ∨
    ∃ c : Passage options plan schedule image slots s,
      (∃ cause, c.afterFiles.fatal = some cause ∧ s' = c.afterFiles ∧
        result = .error (.aborted cause (committedPaths (c.waiting.filter (·.isPending)) c.results))) ∨
      c.afterFiles.fatal = none ∧ ∃ report, result = .ok report ∧
        (plan.conclude (assignResults c.waiting c.results) c.afterFiles.bytesWritten).run (RunState.handler options)
          c.afterFiles = (report, s') := by
  subst hplan
  rw [RunPlan.execute] at h
  rcases hpass : (plan.directoryPass [] slots).run (RunState.handler plan.options) s with ⟨_ | ⟨failures, placed⟩, s₁⟩
  · have hdirectories : (plan.directories slots).run (RunState.handler plan.options) s = _ :=
      Program.run_bind_of_run hpass _
    rw [hdirectories] at h
    cases h
    exact .inl ⟨_, rfl, rfl⟩
  · rcases hblock : (plan.blockFiles failures placed).run (RunState.handler plan.options) s₁ with ⟨blocked, t⟩
    have hdirectories : (plan.directories slots).run (RunState.handler plan.options) s = (.ok blocked, t) :=
      (Program.run_bind_of_run hpass _).trans (Program.run_bind_of_run hblock _)
    rw [hdirectories] at h
    obtain ⟨c, rfl, rfl⟩ := exists_passage hdirectories schedule image
    have hfiles : plan.files schedule image (c.waiting.filter (·.isPending)) c.atFiles = _ := c.files
    simp only [hfiles] at h
    refine .inr ⟨c, ?_⟩
    split at h
    · next hfatal =>
      cases h
      exact .inl ⟨_, hfatal, rfl, rfl⟩
    · next hfatal =>
      cases h
      exact .inr ⟨hfatal, _, rfl, rfl⟩

/-- Where nothing was fatal, the run takes its course from its files to the report. -/
theorem Passage.exists_course {report : Report} (c : Passage options plan schedule image slots s)
    (hfatal : c.afterFiles.fatal = none)
    (h : (plan.conclude (RunPlan.assignResults c.waiting c.results) c.afterFiles.bytesWritten).run
      (RunState.handler options) c.afterFiles = (report, s')) :
    ∃ c' : Course options plan schedule image slots s report s', c'.toPassage = c := by
  obtain ⟨finished, cancelled, t, hfinishing, hlooked, hreport⟩ := exists_finished h
  exact ⟨⟨c, finished, cancelled, t, hfatal, hfinishing, hlooked, hreport⟩, rfl⟩

/-- **Every run that ends in a report has such a course.** -/
theorem exists_course {report : Report} (hplan : plan.options = options)
    (h : plan.execute schedule image slots s = (.ok report, s')) :
    Nonempty (Course options plan schedule image slots s report s') := by
  obtain ⟨err, -, heq⟩ | ⟨c, ⟨cause, -, -, heq⟩ | ⟨hfatal, report', heq, hconclude⟩⟩ := RunPlan.execute_cases hplan h
  · cases heq
  · cases heq
  · cases heq
    obtain ⟨c', -⟩ := c.exists_course hfatal hconclude
    exact ⟨c'⟩

/-! ## Extraction -/

/-- What is said before the passes. -/
theorem prepare_ends {cwd executable : Path} {target : Option Path} {log : List (Exchange Session)}
    (h : (prepare options cwd executable image target).Ends (RunState.handler options) log (.ok (plan, slots))) :
    plan.options = options ∧ resolveRoot cwd executable options.defaultRoot target = .ok plan.root ∧
      slotsFor plan.root options.strict (image.manifest.select options.filter) = .ok slots ∧ marks log = [] ∧
      ∃ asked, (prepareRoot plan.root).Ends FileSystem.answer asked (.ok plan.realRoot) ∧
        fileCalls log = fileCalls (asked.map onFile) := by
  obtain ⟨cancelled, look, rest, rfl, hlook, hrest⟩ := Program.ends_bind_iff.1 h
  obtain ⟨t, _, rfl, hend⟩ := Program.ends_call_iff.1 hlook
  obtain ⟨rfl, -⟩ := Program.ends_done_iff.1 hend
  clear h hlook
  split at hrest
  · obtain ⟨-, heq⟩ := Program.ends_done_iff.1 hrest
    cases heq
  · split at hrest
    · obtain ⟨-, heq⟩ := Program.ends_done_iff.1 hrest
      cases heq
    · next root hroot =>
      split at hrest
      · obtain ⟨-, heq⟩ := Program.ends_done_iff.1 hrest
        cases heq
      · next slots' hslots =>
        obtain ⟨result, first, last, rfl, hfirst, hlast⟩ := Program.ends_bind_iff.1 hrest
        obtain ⟨asked, hprepare, rfl⟩ := onFiles_ends hfirst
        clear hrest hfirst
        cases result with
        | error e =>
          obtain ⟨-, heq⟩ := Program.ends_done_iff.1 hlast
          cases heq
        | ok realRoot =>
          obtain ⟨rfl, heq⟩ := Program.ends_done_iff.1 hlast
          cases heq
          rw [List.append_nil]
          exact ⟨rfl, hroot, hslots, marks_map_onFile asked, asked, hprepare, rfl⟩

/-- A run ends in the error of its preparation, or goes through its passes from there. -/
theorem extract_cases {target : Option Path} {result : Except ExtractError Report}
    (h : extract options schedule image target s = (result, s')) :
    (∃ err, (prepare options s.fs.cwd.toPath s.fs.executable image target).run (RunState.handler options) s =
      (.error err, s') ∧ result = .error err) ∨
    ∃ (plan : RunPlan) (slots : List Slot) (t : RunState),
      (prepare options s.fs.cwd.toPath s.fs.executable image target).run (RunState.handler options) s =
        (.ok (plan, slots), t) ∧
      plan.options = options ∧ resolveRoot s.fs.cwd.toPath s.fs.executable options.defaultRoot target = .ok plan.root ∧
      slotsFor plan.root options.strict (image.manifest.select options.filter) = .ok slots ∧
      (∃ log asked, (RunState.handler options).Leads s log t ∧ marks log = [] ∧
        (prepareRoot plan.root).Ends FileSystem.answer asked (.ok plan.realRoot) ∧
        fileCalls log = fileCalls (asked.map onFile)) ∧
      plan.execute schedule image slots t = (result, s') := by
  rw [extract] at h
  obtain ⟨log, hends, hleads⟩ := Program.exists_ends (RunState.handler options)
    (prepare options s.fs.cwd.toPath s.fs.executable image target) s
  rcases hprepare : (prepare options s.fs.cwd.toPath s.fs.executable image target).run (RunState.handler options) s with
    ⟨_ | ⟨plan, slots⟩, t⟩
  · simp only [hprepare] at h
    cases h
    exact .inl ⟨_, rfl, rfl⟩
  · rw [hprepare] at hends hleads
    simp only [hprepare] at h
    obtain ⟨hplan, hroot, hslots, hmarks, asked, hasked, hcalls⟩ := prepare_ends hends
    exact .inr ⟨plan, slots, t, rfl, hplan, hroot, hslots, ⟨log, asked, hleads, hmarks, hasked, hcalls⟩, h⟩

/-- A run that ends in a report was prepared, and then took its course. -/
theorem extract_course {target : Option Path} {report : Report}
    (h : extract options schedule image target s = (.ok report, s')) :
    ∃ plan slots t, plan.options = options ∧ (∃ names : RealPath, names.IsProper ∧ plan.root = names.toPath) ∧
      slotsFor plan.root options.strict (image.manifest.select options.filter) = .ok slots ∧
      (∃ log asked, (RunState.handler options).Leads s log t ∧ marks log = [] ∧
        (prepareRoot plan.root).Ends FileSystem.answer asked (.ok plan.realRoot) ∧
        fileCalls log = fileCalls (asked.map onFile)) ∧
      Nonempty (Course options plan schedule image slots t report s') := by
  obtain ⟨err, -, heq⟩ | ⟨plan, slots, t, -, hplan, hroot, hslots, hprepared, hexecute⟩ := extract_cases h
  · cases heq
  · exact ⟨plan, slots, t, hplan, resolveRoot_eq_ok hroot, hslots, hprepared, exists_course hplan hexecute⟩

end TreeImage
