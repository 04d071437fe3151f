import TreeImage.Proofs.Extract.Aborting
import TreeImage.Proofs.Extract.Preservation

set_option autoImplicit false

/-! # Confirmed directories stand

Where nobody but the run changes the file system, a directory that was confirmed to lie inside the real root stays where
it is: up to its files a run only adds directories, and its workers only touch regular files, whatever the policy is. A
file that is dealt with lies in such a directory, or in the root itself. So its check succeeds, no file fails by an
escape, and nothing aborts the run. -/

namespace TreeImage

open FileSystem

variable {options : ExtractOptions} {plan : RunPlan} {image : Image} {schedule : List Nat} {s s' t : RunState}
  {failures failures' : RunPlan.Failures} {names real d : RealPath} {n : Name} {start : FileSystem}
  {inv : FileSystem → Prop} {p : Path} {entry path : String} {e : Entry} {entries : List Entry} {slot slot' : Slot}
  {slots slots' pending : List Slot} {report : Report} {o : Outcome} {kind : ErrorKind}

/-! ## Files -/

/-- A parent directory inside the real root is confirmed as long as the frame is kept. -/
theorem confirmParent_confirms (h : start.Names p d n) (hreal : real.IsProper) (hin : real <+: d)
    (hframe : ∀ fs, inv fs → SameFrame start fs) :
    (confirmParent real.toPath p entry).Learns answer inv (· = .ok ()) := by
  obtain ⟨r, hproper, rfl, hd⟩ := h
  have hwithin : d.toPath.isWithin real.toPath = true :=
    (RealPath.isWithin_toPath hreal (isProper_of_resolve (RealPath.isProper_append.1 hproper).1 hd.1)).2 hin
  rw [confirmParent, RealPath.parent?_toPath hproper]
  intro fs hfs
  have hanswer : (fs.answer (.realPath r.toPath)).1 = .ok d.toPath := ((hframe fs hfs).keeps.leadsTo hd).realPath
  rw [hanswer]
  show (Program.bind (if d.toPath.isWithin real.toPath then _ else _) _).Learns _ _ _
  rw [hwithin]
  rfl

/-- The outcome is no failure by a path. -/
def Outcome.KeepsToPath (o : Outcome) : Prop := ∀ message, o ≠ .failed .path message

theorem Outcome.keepsToPath_of_isFailure (h : o.isFailure = false) : o.KeepsToPath := by
  rintro message rfl
  cases h

theorem Outcome.keepsToPath_ofError {err : ExtractError} : (ofError err).KeepsToPath ↔ err.isPathError = false := by
  rw [ExtractError.isPathError, beq_eq_false_iff_ne]
  constructor
  · exact fun h hkind => h err.message (congrArg (failed · err.message) hkind)
  · intro hkind message heq
    exact hkind (failed.inj heq).1

theorem placeFile_keepsToPath (h : start.Names p d n) (hreal : real.IsProper) (hin : real <+: d)
    (hroot : plan.realRoot = real.toPath) (hframe : ∀ fs, inv fs → SameFrame start fs) :
    (plan.placeFile image p e).Learns (RunState.handler options) (fun s => inv s.fs) Outcome.KeepsToPath := by
  have hend : ∀ o : Outcome, o.KeepsToPath → (do
      plan.entryDone e.path (if o.isWritten then (image.content e).length else 0)
      return o : Program Session Outcome).Learns (RunState.handler options) (fun s => inv s.fs) Outcome.KeepsToPath :=
    fun o ho => (Program.learns_true _).bind fun _ _ => ho
  have hwrite : (writeFile plan.options real.toPath p e (image.content e)).Learns answer inv fun result =>
      KeepsToPath result ∧ ∀ o, result = .ok o → o.isFailure = false :=
    (writeFile_keepsToPath (confirmParent_confirms h hreal hin hframe)).and
      ((writeFile_settles ..).restrict fun _ _ => trivial)
  unfold RunPlan.placeFile
  rw [hroot]
  refine hwrite.onFiles.bind ?_
  rintro (err | o) ⟨hkeeps, hok⟩
  · refine (fileFailed_learns err).bind ?_
    rintro _ rfl
    exact hend _ (Outcome.keepsToPath_ofError.2 (failsBy_error.1 hkeeps))
  · exact hend o (Outcome.keepsToPath_of_isFailure (hok o rfl))

/-! ## The pool -/

/-- The directory of the destination lies inside the real root. -/
def Slot.Sheltered (real : RealPath) (fs : FileSystem) (slot : Slot) : Prop :=
  ∃ p d n, slot.destination = some p ∧ fs.Names p d n ∧ real <+: d

/-- The file system with nothing in it. What stood there is spared under every policy. -/
def FileSystem.emptied (fs : FileSystem) : FileSystem := { fs with nodes := [] }

theorem spares_emptied (options : ExtractOptions) (fs : FileSystem) : options.Spares fs.emptied := .inr fun _ => rfl

/-- Workers keep the frame, whatever the policy is. So a file that is sheltered at first fails for no path. -/
theorem files_keepToPath (hquiet : options.IsQuiet) (hplan : plan.options = options) (hroot : plan.Rooted names real s.fs)
    (hsound : ∀ slot ∈ pending, ∀ p, slot.destination = some p → sanitize plan.root slot.entry.path = .ok p)
    {results : List (Option Outcome)} (h : plan.files schedule image pending s = (results, s')) (i : Nat)
    (hslot : pending[i]? = some slot) (ho : results[i]? = some (some o)) (hsheltered : slot.Sheltered real s.fs) :
    o.KeepsToPath := by
  subst hplan
  have hwork : Workable (((sparing s.fs.emptied).inSession hquiet).also fun t => SameFrame s.fs t.fs) Session.isHalted
      (plan.fileJob image pending) _ _ :=
    (workable_sparing hquiet image s.fs.emptied (spares_emptied _ _) hroot hsound).also (maintains_sameFrame.inSession hquiet)
  have hlearns : ∀ i, (plan.fileJob image pending i).Learns (RunState.handler plan.options) (fun t => SameFrame s.fs t.fs)
      fun o => ∀ slot, pending[i]? = some slot → slot.Sheltered real s.fs → o.KeepsToPath := by
    intro i
    by_cases hsheltered : ∃ slot, pending[i]? = some slot ∧ slot.Sheltered real s.fs
    · obtain ⟨slot, hslot, p, d, n, hp, hnames, hin⟩ := hsheltered
      rw [fileJob_eq hslot hp]
      exact (placeFile_keepsToPath hnames hroot.properReal hin hroot.realRoot fun _ => id).imp fun o ho _ _ _ => ho
    · exact (Program.learns_true _).imp fun _ _ slot hslot hs => absurd ⟨slot, hslot, hs⟩ hsheltered
  obtain ⟨-, -, hresults⟩ := runBounded_obeys (hwork.learns hlearns fun _ _ hfit => hfit.2) schedule pending.length
    plan.options.workers (k := ()) trivial ⟨nofun, .refl s.fs⟩ fun _ => trivial
  unfold RunPlan.files at h
  rw [h] at hresults
  obtain ⟨-, ⟨-, htold⟩, -⟩ := hresults i o ho
  exact htold slot hslot hsheltered

/-! ## The passes -/

/-- Blocking is about files only. -/
theorem Passage.mem_waiting (c : Passage options plan schedule image slots s) (hslot : slot ∈ c.placed)
    (hdirectory : slot.entry.isFile = false) : slot ∈ c.waiting := by
  refine List.mem_map.2 ⟨slot, hslot, ?_⟩
  rcases slot.under_eq c.failures with heq | ⟨hfile, -⟩
  · exact heq
  · exact absurd (hdirectory.symm.trans hfile) nofun

section Passage

variable (c : Passage options plan schedule image slots s) (hquiet : options.IsQuiet) (hplan : plan.options = options)
  (hroot : plan.Rooted names real s.fs)
  (hopened : List.Forall₂ (fun e slot => Slot.Opened plan.root e slot) entries slots) (horder : Entry.InOrder entries)

include hquiet hroot hopened

/-- Up to its files a run only adds directories, and what its slots say then is grounded. -/
theorem Passage.prepared : Grows s.fs c.atFiles.fs ∧
    ∀ slot ∈ c.waiting, slot.Prepared plan names real s.fs c.atFiles.fs := by
  have hrun : (plan.directories slots).run (RunState.handler options) s = (.ok c.waiting, c.atFiles) :=
    (Program.run_bind_of_run c.pass _).trans (Program.run_bind_of_run c.block _)
  have hslots : ∀ slot ∈ slots, slot.Opened plan.root slot.entry := fun slot hslot => by
    obtain ⟨e, -, hslot⟩ := exists_of_forall₂ hopened hslot
    exact hslot.entry.symm ▸ hslot
  obtain ⟨⟨⟩, ⟨hgrows, hpassed⟩, -, -⟩ := (directories_growing hquiet hroot (.refl s.fs)
    (fun slot hslot p hp => (hslots slot hslot).destination hp) fun slot hslot => (hslots slot hslot).fresh).run trivial
  rw [hrun] at hgrows hpassed
  exact ⟨hgrows, (hpassed c.waiting rfl).2⟩

include horder

/-- **A pending file is sheltered**, unless the run halts before it. -/
theorem Passage.sheltered (hslot : slot ∈ c.waiting) (hpending : slot.isPending = true) :
    slot.Sheltered real c.atFiles.fs ∨ c.afterDirectories.Halts options := by
  obtain ⟨hgrows, hprepared⟩ := c.prepared hquiet hroot hopened
  obtain ⟨-, -, hplaced⟩ := Slot.isPending_iff.1 hpending
  obtain ⟨p, hp⟩ := Option.ne_none_iff_exists'.1 hplaced
  have hsanitize := (c.destination_iff_of_waiting hopened hslot).1 hp
  obtain ⟨hproper, hspelled⟩ := sanitize_eq_ok hroot.properNames (hroot.root ▸ hsanitize)
  have hall := RealPath.isProper_append.2 ⟨hroot.properNames, hproper⟩
  cases hparent : parentPath? slot.entry.path with
  | none =>
    rw [entryNames_of_parentPath?_eq_none hparent] at hspelled hall
    exact .inl ⟨p, real, _, hp, ⟨names, hall, hspelled, hgrows.keeps.leadsTo hroot.leads⟩, List.prefix_rfl⟩
  | some parent =>
    have hway := isOnTheWay_of_parentPath? hsanitize hparent
    have hentry : slot.entry ∈ entries := c.map_entry_waiting hopened ▸ List.mem_map_of_mem hslot
    obtain ⟨e, he, hdirectory, rfl⟩ := horder.above slot.entry hentry parent hway
    rw [← c.map_entry_placed hopened] at he
    obtain ⟨d, hd, rfl⟩ := List.mem_map.1 he
    obtain ⟨q, hq⟩ := exists_sanitize_above hsanitize hway
    have hdestination := (c.destination_iff_of_placed hopened hd).2 hq
    have hdplaced : d.IsPlaced := ⟨hdirectory, by rw [hdestination]; exact nofun⟩
    cases c.noted hopened horder hd hdplaced with
    | left _ _ hhalts => exact .inr hhalts
    | @settled o ho _ _ =>
      have hwaiting := c.mem_waiting hd hdirectory
      cases hok : o.isFailure with
      | true =>
        -- below a directory that failed, a file is pending only in a run that halts
        cases o with
        | failed kind message => exact .inr (c.halts_of_pending hopened horder hd hdplaced ho hslot hpending hway)
        | notAttempted => exact absurd ho (c.beforePool hopened d hwaiting).attempted
        | _ => cases hok
      | false =>
        obtain ⟨-, q', hq', place, -, hleads, hin, -⟩ := (hprepared d hwaiting).grounded.directory hdirectory o ho hok
        obtain rfl := Option.some.inj (hdestination.symm.trans hq')
        obtain ⟨-, rfl⟩ := sanitize_eq_ok hroot.properNames (hroot.root ▸ hq)
        rw [entryNames_of_parentPath? hparent, ← List.append_assoc] at hspelled hall
        exact .inl ⟨p, place, _, hp, ⟨_, hall, hspelled, hleads⟩, hin⟩

include hplan

/-- **No file that is dealt with fails for a path.** -/
theorem Passage.keepsToPath {i : Nat} (hslot : (c.waiting.filter (·.isPending))[i]? = some slot)
    (ho : c.results[i]? = some (some o)) : o.KeepsToPath := by
  obtain ⟨hwaiting, hpending⟩ := List.mem_filter.1 (List.mem_of_getElem? hslot)
  rcases c.sheltered hquiet hroot hopened horder hwaiting hpending with hsheltered | hhalts
  · obtain ⟨hgrows, hprepared⟩ := c.prepared hquiet hroot hopened
    exact files_keepToPath hquiet hplan (hroot.keeps hgrows.keeps)
      (fun slot hslot => (hprepared slot (List.mem_filter.1 hslot).1).destination) c.files i hslot ho hsheltered
  · have hnone := c.result_eq_none hplan hhalts i
    rw [ho] at hnone
    cases hnone

/-- So nothing fatal is raised. -/
theorem Passage.fatal_eq_none (hstart : s.fatal = none) : c.afterFiles.fatal = none := by
  cases hfatal : c.afterFiles.fatal with
  | none => rfl
  | some cause =>
    obtain ⟨i, slot, p, o, log, hslot, ho, -, hends, hraise⟩ := c.exists_raise hplan hstart hfatal
    obtain ⟨rfl, hpath, -⟩ := path_error_of_raise hends hraise
    have hkeeps := c.keepsToPath hquiet hplan hroot hopened horder hslot ho
    exact absurd (hpath.symm.trans (Outcome.keepsToPath_ofError.1 hkeeps)) nofun

end Passage

/-! ## Reports -/

theorem RunPlan.Failures.failed_of_lookup_note (h : (failures.note e o).lookup path ≠ none)
    (hbefore : failures.lookup path = none) : e.path = path ∧ o.isFailed = true := by
  by_cases hpath : e.path = path
  · cases o with
    | failed kind message => exact ⟨hpath, rfl⟩
    | _ => exact absurd hbefore h
  · rw [lookup_note_of_ne hpath] at h
    exact absurd hbefore h

theorem RunPlan.lookup_of_blocked (h : blocked? failures e = some o) :
    ∃ parent, e.parent? = some parent ∧ failures.lookup parent ≠ none := by
  rw [blocked?] at h
  split at h
  · cases h
  · next parent hparent =>
    refine ⟨parent, hparent, fun hnone => ?_⟩
    rw [hnone] at h
    cases h

/-- Only directories that failed are noted. -/
theorem DirectoryRun.exists_failed (h : DirectoryRun options plan failures slots s failures' slots' s')
    (hbefore : failures.lookup path = none) (hafter : failures'.lookup path ≠ none) :
    ∃ slot ∈ slots', slot.entry.isFile = false ∧ slot.entry.path = path ∧ slot.hasFailed = true := by
  induction h with
  | nil => exact absurd hbefore hafter
  | halted => exact absurd hbefore hafter
  | @cons failures failures₁ _ slot slot' _ _ _ _ _ hstep _ ih =>
    by_cases hnone : failures₁.lookup path = none
    · obtain ⟨d, hd, hfailed⟩ := ih hnone hafter
      exact ⟨d, List.mem_cons_of_mem _ hd, hfailed⟩
    · refine ⟨slot', List.mem_cons_self, ?_⟩
      cases hstep with
      | decided hdirectory ho =>
        obtain ⟨hpath, hfailed⟩ := RunPlan.Failures.failed_of_lookup_note hnone hbefore
        exact ⟨hdirectory, hpath, by rw [Slot.hasFailed, ho]; exact hfailed⟩
      | placed hdirectory =>
        obtain ⟨hpath, hfailed⟩ := RunPlan.Failures.failed_of_lookup_note hnone hbefore
        exact ⟨hdirectory, hpath, hfailed⟩
      | _ => exact absurd hbefore hnone

section Course

variable (c : Course options plan schedule image slots s report s')

/-- Nothing is done for directories between the directory pass and the last one. -/
theorem Course.mem_assigned (hd : slot ∈ c.placed) (hdirectory : slot.entry.isFile = false) : slot ∈ c.assigned := by
  have hnot : slot.isPending = false := by rw [Slot.isPending, hdirectory]; rfl
  exact mem_assignResults_iff.2 (.inl ⟨c.mem_waiting hd hdirectory, hnot⟩)

/-- What failed in the directory pass is reported as failed. -/
theorem Course.exists_failed (hd : slot ∈ c.placed) (hdirectory : slot.entry.isFile = false)
    (hfailed : slot.hasFailed = true) : ∃ slot' ∈ c.finished, slot'.entry = slot.entry ∧ slot'.hasFailed = true := by
  obtain ⟨slot', hslot', hfinishes⟩ := exists_of_forall₂ c.finishes.flip (c.mem_assigned hd hdirectory)
  refine ⟨slot', hslot', ?_⟩
  rcases hfinishes with rfl | ⟨-, p, err, -, rfl⟩
  · exact ⟨rfl, hfailed⟩
  · exact ⟨rfl, rfl⟩

/-- A file with an accepted path whose parent directory is not reported as failed is not reported as failed for a path. -/
theorem Course.report_keepsToPath (hquiet : options.IsQuiet) (hplan : plan.options = options) (hroot : plan.Rooted names real s.fs)
    (hopened : List.Forall₂ (fun e slot => Slot.Opened plan.root e slot) entries slots) (horder : Entry.InOrder entries)
    (hslot : slot ∈ c.finished) (hfile : slot.entry.isFile = true) (hp : sanitize plan.root slot.entry.path = .ok p)
    (hparent : ∀ d ∈ c.finished, slot.entry.parent? = some d.entry.path → d.hasFailed = false) :
    slot.report.outcome.KeepsToPath := by
  obtain ⟨assigned, hassigned, hfinishes⟩ := exists_of_forall₂ c.finishes hslot
  obtain rfl : slot = assigned := by
    refine (c.eq_or_refused hopened hassigned hfinishes).resolve_right fun hrefused => ?_
    exact absurd ((Entry.isFile_eq_false_iff.2 hrefused.1).symm.trans hfile) nofun
  rcases mem_assignResults hassigned with ⟨hwaiting, hnot⟩ | ⟨i, pending, hpending, rfl⟩
  · -- the file was blocked, so its parent failed
    have hplaced : slot.destination ≠ none := by
      rw [(c.destination_iff_of_waiting hopened hwaiting).2 hp]
      exact nofun
    obtain ⟨slot₁, hslot₁, rfl⟩ := List.mem_map.1 hwaiting
    rcases slot₁.under_eq c.failures with heq | ⟨-, -, o, hblocked, heq⟩
    · rw [heq] at hnot hfile hplaced
      have hpending := Slot.isPending_iff.2 ⟨hfile, c.open_of_file hopened hslot₁ hfile hplaced, hplaced⟩
      exact absurd (hpending.symm.trans hnot) nofun
    · rw [heq] at hparent
      obtain ⟨parent, hname, hlookup⟩ := RunPlan.lookup_of_blocked hblocked
      obtain ⟨d, hd, hdirectory, rfl, hfailed⟩ := c.directories.exists_failed rfl hlookup
      obtain ⟨d', hd', hentry, hfailed'⟩ := c.exists_failed hd hdirectory hfailed
      exact absurd (hfailed'.symm.trans (hparent d' hd' (hentry ▸ hname))) nofun
  · cases ho : c.results[i]?.join with
    | none => exact nofun
    | some o => exact c.keepsToPath hquiet hplan hroot hopened horder hpending (Option.join_eq_some_iff.1 ho)

end Course

/-! ## Checks -/

/-- The file system that a call met. -/
def Event.met? : Event → Option FileSystem
  | call _ fs => some fs
  | told _ => none

/-- Between the file systems that the calls so far met, and since, directories and links were kept. -/
def RunState.Steady (s : RunState) : Prop := (s.trace.filterMap (·.met?) ++ [s.fs]).Pairwise Keeps

theorem RunState.steady_start (fs : FileSystem) (options : ExtractOptions) : (RunState.start fs options).Steady :=
  List.pairwise_singleton _ _

theorem RunState.Steady.handler (h : s.Steady) (hquiet : options.IsQuiet) {c : SessionCall}
    (hkeeps : Keeps s.fs (RunState.handler options c s).2.fs) : (RunState.handler options c s).2.Steady := by
  by_cases hc : c.IsTacit
  · obtain ⟨hfs, htrace | ⟨p, htrace⟩⟩ := RunState.handler_tacit hquiet hc s
    · rwa [Steady, hfs, htrace]
    · rw [Steady, hfs, htrace, List.filterMap_append]
      exact (List.append_nil _).symm ▸ h
  · cases c with
    | file c =>
      show ((s.trace ++ [Event.call c s.fs]).filterMap _ ++ [(s.fs.answer c).2]).Pairwise Keeps
      rw [List.filterMap_append]
      refine List.pairwise_append.2 ⟨h, List.pairwise_singleton _ _, fun fs hfs fs' hfs' => ?_⟩
      rw [List.mem_singleton.1 hfs']
      rcases List.mem_append.1 hfs with hbefore | hlast
      · exact ((List.pairwise_append.1 h).2.2 fs hbefore _ (List.mem_singleton_self _)).trans hkeeps
      · rw [List.mem_singleton.1 hlast]
        exact hkeeps
    | _ => exact absurd trivial hc

/-- What obeys a discipline whose calls keep directories and links stays steady. -/
theorem RunState.Steady.reach {κ : Type} {D : Discipline (I := Files) FileSystem.answer κ} {hquiet : options.IsQuiet}
    (h : s.Steady) (hreach : (D.inSession hquiet).Reach s s')
    (hmay : ∀ k k' c fs, D.may k k' c fs → Keeps fs (fs.answer c).2) :
    s'.Steady := by
  induction hreach with
  | refl => exact h
  | @tail t _ _ hstep ih =>
    obtain ⟨k, k', c, hstep, -, -, rfl⟩ := hstep
    refine ih.handler hquiet ?_
    by_cases hc : c.IsTacit
    · rw [(RunState.handler_tacit hquiet hc t).1]
      exact .refl t.fs
    · cases c with
      | file c => exact hmay k k' c t.fs hstep
      | _ => exact absurd trivial hc

/-- A check that meets a directory finds what every check of it finds later. -/
theorem RunState.Steady.checks (h : s.Steady) : s.trace.Pairwise fun x y => ∀ (p : Path) (d : RealPath) (fs fs' : FileSystem),
    x = .call (.realPath p) fs → y = .call (.realPath p) fs' → fs.LeadsTo p d → fs'.realPath p = .ok d.toPath := by
  refine (List.pairwise_filterMap.1 (List.pairwise_append.1 h).1).imp ?_
  rintro _ _ hkept p d fs fs' rfl rfl hleads
  exact ((hkept fs rfl fs' rfl).leadsTo hleads).realPath

section Steady

variable (hquiet : options.IsQuiet) (hroot : plan.Rooted names real s.fs)
  (hopened : List.Forall₂ (fun e slot => Slot.Opened plan.root e slot) entries slots) (hsteady : s.Steady)

include hquiet hroot hopened hsteady

theorem directories_steady : ((plan.directories slots).run (RunState.handler options) s).2.Steady := by
  have hslots : ∀ slot ∈ slots, slot.Opened plan.root slot.entry := fun slot hslot => by
    obtain ⟨e, -, hslot⟩ := exists_of_forall₂ hopened hslot
    exact hslot.entry.symm ▸ hslot
  obtain ⟨⟨⟩, -, -, hcalls, -⟩ := (directories_growing hquiet hroot (.refl s.fs)
    (fun slot hslot p hp => (hslots slot hslot).destination hp) fun slot hslot => (hslots slot hslot).fresh).run trivial
  exact hsteady.reach hcalls.reach fun _ _ _ _ hmay => FileSystem.Grows.keeps hmay

/-- A run stays steady through its passes. -/
theorem execute_steady (hplan : plan.options = options) {result : Except ExtractError Report}
    (h : plan.execute schedule image slots s = (result, s')) : s'.Steady := by
  have hdirectories := directories_steady hquiet hroot hopened hsteady
  obtain ⟨err, hpass, -⟩ | ⟨c, hend⟩ := RunPlan.execute_cases hplan h
  · have hrun : (plan.directories slots).run (RunState.handler options) s = (.error err, s') := Program.run_bind_of_run hpass _
    rwa [hrun] at hdirectories
  · have hrun : (plan.directories slots).run (RunState.handler options) s = (.ok c.waiting, c.atFiles) :=
      (Program.run_bind_of_run c.pass _).trans (Program.run_bind_of_run c.block _)
    rw [hrun] at hdirectories
    obtain ⟨hgrows, hprepared⟩ := c.prepared hquiet hroot hopened
    have hreach := files_reach hquiet schedule hplan (spares_emptied options s.fs) (hroot.keeps hgrows.keeps)
      (fun slot hslot => (hprepared slot (List.mem_filter.1 hslot).1).destination) nofun c.files
    have hframe : SameFrame c.atFiles.fs c.afterFiles.fs :=
      (Discipline.reach_keeping (Discipline.reach_of_inSession hreach)).1
    have hfiles : c.afterFiles.Steady := hdirectories.reach hreach fun _ _ _ _ hmay => SameFrame.keeps hmay
    obtain ⟨cause, -, rfl, -⟩ | ⟨-, report, -, hconclude⟩ := hend
    · exact hfiles
    · have hmade : ∀ slot ∈ c.waiting, slot.MadeNew s.fs.emptied c.afterFiles.fs := fun slot hslot hmade => by
        obtain ⟨p, d, hp, hd, -⟩ := (hprepared slot hslot).grounded.made hmade
        exact ⟨p, d, hp, hframe.keeps.leadsTo hd, rfl⟩
      have hfinish : (plan.conclude (RunPlan.assignResults c.waiting c.results) c.afterFiles.bytesWritten).Obeys
          ((finishing s.fs.emptied).inSession hquiet) (fun _ _ _ => True) () c.afterFiles :=
        conclude_finishing hquiet (madeNew_assigned hmade) _
      obtain ⟨⟨⟩, -, -, hcalls, -⟩ := hfinish.run (nofun : s.fs.emptied.Preserves c.afterFiles.fs)
      rw [hconclude] at hcalls
      exact hfiles.reach hcalls.reach fun _ _ _ _ hmay => hmay

end Steady

/-! ## Extraction -/

/-- **No file meets an escape where only the run changes the file system.** Whatever links there are, and however many
    workers take turns, a run is not aborted. In its report, a file with an accepted path whose parent directory did not
    fail does not fail for a path. For a place that a check found to be a directory stays that, whenever it is checked
    again. -/
theorem extract_meets_no_escape {options : ExtractOptions} (hquiet : options.IsQuiet) (schedule : List Nat) {bytes : Bytes}
    {image : Image} (hparse : Image.parse bytes = .ok image) (target : Option Path) (fs : FileSystem)
    {result : Except ExtractError Report} {s : RunState}
    (h : extract options schedule image target (.start fs options) = (result, s)) :
    (∀ cause committed, result ≠ .error (.aborted cause committed)) ∧
      (∀ report, result = .ok report → ∀ r ∈ report.entries, r.kind = .file →
        (∃ p, sanitize report.target r.path = .ok p) →
        (∀ d ∈ report.entries, parentPath? r.path = some d.path → d.outcome.isFailed = false) →
        ∀ message, r.outcome ≠ .failed .path message) ∧
      s.trace.Pairwise fun x y => ∀ (p : Path) (d : RealPath) (fs fs' : FileSystem), x = .call (.realPath p) fs →
        y = .call (.realPath p) fs' → fs.LeadsTo p d → fs'.realPath p = .ok d.toPath := by
  have hsteady : ∀ {prepared : Except ExtractError (RunPlan × List Slot)} {t : RunState},
      (prepare options fs.cwd.toPath fs.executable image target).run (RunState.handler options) (.start fs options) =
        (prepared, t) → t.Steady := by
    intro prepared t hprepare
    obtain ⟨⟨⟩, -, -, hcalls, -⟩ := (prepare_growing hquiet fs.cwd.toPath fs.executable target).run trivial
    rw [hprepare] at hcalls
    exact (RunState.steady_start fs options).reach hcalls.reach fun _ _ _ _ hmay => FileSystem.Grows.keeps hmay
  obtain ⟨err, hprepare, rfl⟩ | ⟨plan, slots, t, hprepare, hplan, -, hslots, ⟨log, -, hleads, hmarks, -⟩, hexecute⟩ :=
    extract_cases h
  · refine ⟨?_, nofun, (hsteady hprepare).checks⟩
    rintro cause committed ⟨⟩
    have hnever := (prepare_never_aborts fs.cwd.toPath fs.executable target).run (.start fs options) _
      (congrArg Prod.fst hprepare)
    cases hnever
  · obtain ⟨names, -, -, -, hprepared⟩ := (prepare_run hquiet hprepare).resolve_left fun ⟨_, _, e, he⟩ => nomatch he
    obtain ⟨-, real, hroot, -⟩ := hprepared plan slots rfl
    have hopened := slotsFor_opened hslots
    have horder : Entry.InOrder (image.manifest.select options.filter) := Image.inOrder_select hparse
    have hstart : t.fatal = none := by
      have hledger := hleads.ledger
      rw [hmarks] at hledger
      exact congrArg Ledger.fatal hledger
    refine ⟨?_, ?_, (execute_steady hquiet hroot hopened (hsteady hprepare) hplan hexecute).checks⟩
    · rintro cause committed rfl
      obtain ⟨err, hpass, heq⟩ | ⟨c, ⟨cause', hfatal, -⟩ | ⟨-, report, heq, -⟩⟩ := RunPlan.execute_cases hplan hexecute
      · have hfails := directoryPass_fails.run t err (by rw [hpass])
        rw [← Except.error.inj heq] at hfails
        cases hfails
      · rw [c.fatal_eq_none hquiet hplan hroot hopened horder hstart] at hfatal
        cases hfatal
      · cases heq
    · rintro report rfl r hr hfile ⟨p, hp⟩ hparent
      obtain ⟨c⟩ := exists_course hplan hexecute
      rw [c.report] at hr hp hparent
      obtain ⟨slot, hslot, rfl⟩ := List.mem_map.1 hr
      refine c.report_keepsToPath hquiet hplan hroot hopened horder hslot (beq_iff_eq.2 hfile) hp fun d hd hname => ?_
      exact d.isFailed_report ▸ hparent d.report (List.mem_map_of_mem hd) hname

/-- Two links stand below the root: the file below the one that stays inside is created, and the directory at the one
    that leads out has failed before its file is tried. -/
theorem extract_meets_no_escape_beside_link :
    let options : ExtractOptions := { workers := 2, strict := false }
    let image : Image := .written ⟨[.directory "d" none, .directory "l" none, .file "d/f" 0 1 (.of [120]) none,
      .file "l/g" 0 0 (.of []) none]⟩ [120]
    let fs := rootWith [([utf8 "away"], .directory 0o755), ([utf8 "out"], .directory 0o755),
      ([utf8 "out", utf8 "in"], .directory 0o755), ([utf8 "out", utf8 "d"], .symlink (utf8 "in")),
      ([utf8 "out", utf8 "l"], .symlink (utf8 "../away"))]
    options.IsQuiet ∧ Image.parse image.source = .ok image ∧
      ∃ report s, extract options [1, 0, 1] image (some (.ofString "/out")) (.start fs options) = (.ok report, s) ∧
        report.entries = [⟨"d", .directory, .skippedUnchanged⟩, ⟨"l", .directory, .ofError (.escape "l" (.ofString "/away"))⟩,
          ⟨"d/f", .file, .created⟩, ⟨"l/g", .file, .failed .path "parent directory 'l' could not be created"⟩] ∧
        (∀ r ∈ report.entries, r.kind = .file → (∃ p, sanitize report.target r.path = .ok p) →
          (∀ d ∈ report.entries, parentPath? r.path = some d.path → d.outcome.isFailed = false) →
          ∀ message, r.outcome ≠ .failed .path message) ∧
        s.trace.Pairwise fun x y => ∀ (p : Path) (d : RealPath) (fs fs' : FileSystem), x = .call (.realPath p) fs →
          y = .call (.realPath p) fs' → fs.LeadsTo p d → fs'.realPath p = .ok d.toPath := by
  intro options image fs
  have hquiet : options.IsQuiet := fun _ hlistener => nomatch hlistener
  have hvalid : ∀ d d' : Digest, Manifest.validate
      ⟨[.directory "d" none, .directory "l" none, .file "d/f" 0 1 d none, .file "l/g" 0 0 d' none]⟩ 1 = .ok () := by
    intro d d'
    cbv
  have hparse : Image.parse image.source = .ok image :=
    Image.parse_written (by decide) (by decide) (hvalid _ _) (by decide)
  have hentries : (extract options [1, 0, 1] image (some (.ofString "/out")) (.start fs options)).1.toOption.map
      (fun r => (r.target, r.entries)) = some (.ofString "/out", [⟨"d", .directory, .skippedUnchanged⟩,
        ⟨"l", .directory, .ofError (.escape "l" (.ofString "/away"))⟩, ⟨"d/f", .file, .created⟩,
        ⟨"l/g", .file, .failed .path "parent directory 'l' could not be created"⟩]) := by decide +kernel
  obtain ⟨report, hrun, -, hlist⟩ := exists_entries hentries
  obtain ⟨-, hfiles, hchecks⟩ := extract_meets_no_escape hquiet [1, 0, 1] hparse (some (.ofString "/out")) fs hrun
  exact ⟨hquiet, hparse, report, _, hrun, hlist, hfiles report rfl, hchecks⟩

end TreeImage
