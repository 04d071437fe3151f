import TreeImage.Proofs.Extract.DirectoryModes
import TreeImage.Proofs.Extract.FileResults
import TreeImage.Proofs.Extract.Preparation
import TreeImage.Proofs.Extract.Run
import TreeImage.Proofs.Manifest.Checked

set_option autoImplicit false

/-! # What a report tells

The report of a run with one worker tells exactly what the run did: for every entry what stood at its
destination before and what stands there now, and that nothing else is different. -/

namespace TreeImage

open FileSystem

variable {names real : RealPath} {fs fs' fs₀ fs₁ fs₂ fs₃ fs₄ : FileSystem} {p : Path} {e : Entry}
  {entries : List Entry} {slot slot' : Slot} {slots slots' : List Slot} {plan : RunPlan}
  {options : ExtractOptions} {image : Image} {content : Bytes} {o : Outcome} {s s' : RunState}

/-! ## Outcomes -/

/-- The mode is the recorded one, if there is one. -/
def Entry.Recorded (e : Entry) (mode : UInt32) : Prop := ∀ m, e.mode = some m → mode = m &&& modeMask

/-- What an outcome tells of an entry with this content: what stood at its destination before the run, and
    what stands there afterwards. -/
inductive Told (options : ExtractOptions) (e : Entry) (content : Bytes) :
    Outcome → Option Node → Option Node → Prop
  | createdDirectory {mode : UInt32} (hkind : e.isFile = false) (hmode : e.Recorded mode) :
      Told options e content .created none (some (.directory mode))
  | createdFile {mode : UInt32} (hkind : e.isFile = true) (hdigest : Digest.of content = e.digest)
      (hmode : e.Recorded mode) : Told options e content .created none (some (.file mode content))
  | overwritten {oldMode mode : UInt32} {old : Bytes} (hkind : e.isFile = true)
      (hpolicy : options.overwrite = .forceOverwrite ∨
        options.overwrite = .overwriteIfChanged ∧ Digest.of old ≠ e.digest)
      (hdigest : Digest.of content = e.digest) (hmode : e.Recorded mode) :
      Told options e content .overwritten (some (.file oldMode old)) (some (.file mode content))
  | keptDirectory {mode : UInt32} (hkind : e.isFile = false) :
      Told options e content .skippedUnchanged (some (.directory mode)) (some (.directory mode))
  | keptFile {mode : UInt32} {old : Bytes} (hkind : e.isFile = true)
      (hpolicy : options.overwrite ≠ .forceOverwrite) (hdigest : Digest.of old = e.digest) :
      Told options e content .skippedUnchanged (some (.file mode old)) (some (.file mode old))
  | diverged {mode : UInt32} {old : Bytes} (hkind : e.isFile = true)
      (hpolicy : options.overwrite = .skipExisting) (hdigest : Digest.of old ≠ e.digest) :
      Told options e content .diverged (some (.file mode old)) (some (.file mode old))
  | failed {kind : ErrorKind} {message : String} {v : Option Node} :
      Told options e content (.failed kind message) v v
  | notAttempted {v : Option Node} : Told options e content .notAttempted v v

/-- What is put in place is no link. -/
theorem Told.exists_of_ne {v v' : Option Node} (h : Told options e content o v v') (hne : v' ≠ v) :
    ∃ x, v' = some x ∧ x.kind ≠ .symlink := by
  cases h with
  | createdDirectory => exact ⟨_, rfl, by simp [Node.kind]⟩
  | createdFile => exact ⟨_, rfl, by simp [Node.kind]⟩
  | overwritten => exact ⟨_, rfl, by simp [Node.kind]⟩
  | _ => exact absurd rfl hne

/-- What became of a file is what its outcome tells. -/
theorem FileSettled.told {n : Name} {stageable : Prop} {v v' : Option Node}
    {result : Except ExtractError Outcome} (h : FileSettled options e n content stageable v result v')
    (hfile : e.isFile = true) : Told options e content (.ofResult result) v v' := by
  have hrecorded : e.Recorded ((e.mode.map (· &&& modeMask)).getD newFileMode) := by
    intro m hm
    rw [hm]
    rfl
  cases h with
  | refused _ _ => exact .failed
  | obstructed _ _ => exact .failed
  | crowded _ _ => exact .failed
  | corrupt _ _ _ => exact .failed
  | created _ _ hdigest => exact .createdFile hfile hdigest hrecorded
  | overwritten _ hdigest hleave =>
    refine .overwritten hfile ?_ hdigest hrecorded
    simpa using OverwritePolicy.leave?_eq_none_iff.1 hleave
  | left _ hleave =>
    rcases OverwritePolicy.leave?_eq_some_iff.1 hleave with ⟨rfl, hsame, hpolicy⟩ | ⟨rfl, hsame, hpolicy⟩
    · exact .keptFile hfile hpolicy (by simpa using hsame)
    · exact .diverged hfile hpolicy (by simpa using hsame)

/-- A node that was put in place has a name that calls accept. -/
theorem FileSettled.isAcceptable_of_ne {n : Name} {stageable : Prop} {v v' : Option Node}
    {result : Except ExtractError Outcome} (h : FileSettled options e n content stageable v result v')
    (hne : v' ≠ v) : IsAcceptable n := by
  cases h with
  | created hn _ _ => exact hn
  | overwritten hn _ _ => exact hn
  | _ => exact absurd rfl hne

/-! ## The passes -/

/-- The slots with what the pool of one worker came to. -/
def settledSlots (slots : List Slot) (os : List Outcome) : List Slot :=
  RunPlan.assignResults slots ((List.range (slots.filter (·.isPending)).length).map (os[·]?))

/-- The passes of a run with one worker, from `s₁` to `s₄`: the directories are made, files are written in
    order, and directories get their modes. `slots₂` are the slots after the passes over directories. -/
structure Passes (options : ExtractOptions) (image : Image) (real : RealPath) (slots slots₂ : List Slot)
    (os : List Outcome) (s₁ s₂ s₃ s₄ : RunState) : Prop where
  directories : PassResult real s₁.fs slots slots₂ s₂.fs
  files : InOrder options image real (slots₂.filter (·.isPending)) s₂ os s₃
  modes : SetsModes real (settledSlots slots₂ os) s₃.fs s₄.fs

/-- A slot before the passes: nothing was done, or its path was not accepted. -/
structure Slot.Untried (slot : Slot) : Prop where
  made : slot.made = false
  outcome : ∀ o, slot.outcome = some o → ∃ kind message, o = .failed kind message
  destination : slot.outcome = none → slot.destination.isSome = true

section Passes

variable {slots₂ : List Slot} {os : List Outcome} {s₁ s₂ s₃ s₄ : RunState}

theorem map_entry_settledSlots (slots : List Slot) (os : List Outcome) :
    (settledSlots slots os).map (·.entry) = slots.map (·.entry) := map_entry_assignResults ..

theorem PassResult.map_entry (h : PassResult real fs slots slots' fs') :
    slots'.map (·.entry) = slots.map (·.entry) := by
  have hvisited := h.visited
  generalize hfs : fs = start at hvisited
  clear h
  induction hvisited with
  | nil => rfl
  | cons hslot _ ih => rw [List.map_cons, List.map_cons, hslot.entry, ih]

theorem HomesDiffer.of_map_entry (h : HomesDiffer real slots)
    (hentries : slots'.map (·.entry) = slots.map (·.entry)) : HomesDiffer real slots' := by
  have hhomes : ∀ l : List Slot, l.map (·.entry.home real) = (l.map (·.entry)).map (·.home real) := by
    intro l
    rw [List.map_map]
    rfl
  rw [HomesDiffer, hhomes, hentries, ← hhomes]
  exact h

theorem isHome_of_map_entry (hentries : slots'.map (·.entry) = slots.map (·.entry)) (q : RealPath) :
    IsHome real slots' q ↔ IsHome real slots q := by
  have hhome : ∀ l : List Slot, IsHome real l q ↔ ∃ e ∈ l.map (·.entry), q = e.home real := by
    simp [IsHome]
  rw [hhome, hhome, hentries]

/-- What a slot is after the files were written. -/
theorem mem_settledSlots (h : slot ∈ settledSlots slots os) :
    (slot ∈ slots ∧ slot.isPending = false) ∨ ∃ (i : Nat) (slot' : Slot),
      (slots.filter (·.isPending))[i]? = some slot' ∧ slot = { slot' with outcome := os[i]? } := by
  rcases mem_assignResults h with hmem | ⟨i, slot', hslot', rfl⟩
  · exact .inl hmem
  · refine .inr ⟨i, slot', hslot', ?_⟩
    have hlt := (List.getElem?_eq_some_iff.1 hslot').1
    rw [List.getElem?_map, List.getElem?_range hlt]
    rfl

/-- What a slot tells of the home of its entry, and that a node that was put there can be found by the
    destination. -/
structure Slot.Tells (options : ExtractOptions) (image : Image) (real : RealPath) (fs fs' : FileSystem)
    (slot : Slot) : Prop where
  told : Told options slot.entry (image.content slot.entry) (slot.outcome.getD .notAttempted)
    (fs.get? (slot.entry.home real)) (fs'.get? (slot.entry.home real))
  within : fs'.get? (slot.entry.home real) ≠ fs.get? (slot.entry.home real) →
    slot.Within fs' real ∧ IsAcceptable slot.name

/-- A slot that tells that nothing was done. -/
theorem Slot.tells_of_eq (ho : ∀ o, slot.outcome = some o → ∃ kind message, o = .failed kind message)
    (hsame : fs'.get? (slot.entry.home real) = fs.get? (slot.entry.home real)) :
    slot.Tells options image real fs fs' := by
  refine ⟨?_, fun hne => absurd hsame hne⟩
  rw [hsame]
  cases houtcome : slot.outcome with
  | none => exact .notAttempted
  | some o =>
    obtain ⟨kind, message, rfl⟩ := ho o houtcome
    exact .failed

namespace Passes

variable (h : Passes options image real slots slots₂ os s₁ s₂ s₃ s₄) (hdiffer : HomesDiffer real slots)
  (huntried : ∀ slot ∈ slots, slot.Untried)

include h hdiffer

theorem homesDiffer₂ : HomesDiffer real slots₂ := hdiffer.of_map_entry h.directories.map_entry

theorem homesDiffer₃ : HomesDiffer real (settledSlots slots₂ os) :=
  (h.homesDiffer₂ hdiffer).of_map_entry (map_entry_settledSlots slots₂ os)

/-- Where no directory was made, the passes over directories change nothing. -/
theorem get?_directories (hslot : slot ∈ slots₂) (hmade : slot.made = false) :
    s₂.fs.get? (slot.entry.home real) = s₁.fs.get? (slot.entry.home real) := by
  refine h.directories.makes.outside.get? _ ?_
  rintro ⟨slot', hslot', hmade', heq⟩
  rw [(h.homesDiffer₂ hdiffer).eq hslot hslot' heq] at hmade
  exact Bool.false_ne_true (hmade.symm.trans hmade')

/-- Where no file is pending, the file pass changes nothing. -/
theorem get?_files (hslot : slot ∈ slots₂) (hpending : slot.isPending = false) :
    s₃.fs.get? (slot.entry.home real) = s₂.fs.get? (slot.entry.home real) := by
  refine h.files.other _ ?_
  intro i slot' _ hslot' heq
  obtain ⟨hmem, hpending'⟩ := List.mem_filter.1 (List.mem_of_getElem? hslot')
  rw [(h.homesDiffer₂ hdiffer).eq hslot hmem heq] at hpending
  exact Bool.false_ne_true (hpending.symm.trans hpending')

/-- Where no directory was made, no mode is set. -/
theorem get?_modes (hslot : slot ∈ settledSlots slots₂ os) (hmade : slot.made = false) :
    s₄.fs.get? (slot.entry.home real) = s₃.fs.get? (slot.entry.home real) := by
  refine h.modes.outside.get? _ ?_
  rintro ⟨mode, slot', hslot', hmade', -, heq⟩
  rw [(h.homesDiffer₃ hdiffer).eq hslot hslot' heq] at hmade
  exact Bool.false_ne_true (hmade.symm.trans hmade')

/-- What a slot tells that was not pending when the files were written. -/
theorem tells_of_not_pending (huntried : ∀ slot ∈ slots, slot.Untried) (hslot : slot ∈ slots₂)
    (hslot₃ : slot ∈ settledSlots slots₂ os) (hpending : slot.isPending = false) :
    slot.Tells options image real s₁.fs s₄.fs := by
  obtain ⟨slot₁, hslot₁, hvisited⟩ := exists_of_forall₂ h.directories.visited hslot
  have hfiles := h.get?_files hdiffer hslot hpending
  have hunmade := (huntried slot₁ hslot₁).made
  have hsame : slot.made = false → s₄.fs.get? (slot.entry.home real) = s₁.fs.get? (slot.entry.home real) :=
    fun hmade => ((h.get?_modes hdiffer hslot₃ hmade).trans hfiles).trans
      (h.get?_directories hdiffer hslot hmade)
  cases hvisited with
  | untouched => exact Slot.tells_of_eq (huntried slot hslot₁).outcome (hsame hunmade)
  | failed _ kind message =>
    refine Slot.tells_of_eq ?_ (hsame hunmade)
    rintro _ ⟨⟩
    exact ⟨kind, message, rfl⟩
  | existing hdirectory hthere =>
    have hsame := hsame hunmade
    refine ⟨?_, fun hne => absurd hsame hne⟩
    dsimp only at hsame ⊢
    rw [hsame, hthere]
    exact .keptDirectory hdirectory
  | made hdirectory hfree =>
    obtain ⟨hwithin, hn⟩ := h.directories.within _ hslot rfl
    have hkeeps := h.files.frame.keeps.trans h.modes.keeps
    refine ⟨?_, fun _ => ⟨hwithin.keeps hkeeps, hn⟩⟩
    obtain ⟨mode, hmode⟩ := isDirectoryAt_iff.1 (h.directories.makes.made _ ⟨_, hslot, rfl, rfl⟩).2
    dsimp only at hmode hfiles ⊢
    rw [hfree]
    cases hrecorded : slot₁.entry.mode with
    | none =>
      -- no mode is set at this home
      have hnoMode : s₄.fs.get? (slot₁.entry.home real) = s₃.fs.get? (slot₁.entry.home real) := by
        refine h.modes.outside.get? _ ?_
        rintro ⟨mode, slot', hslot', -, hmode', heq⟩
        rw [← (h.homesDiffer₃ hdiffer).eq hslot₃ hslot' heq] at hmode'
        cases hrecorded.symm.trans hmode'
      rw [hnoMode, hfiles, hmode]
      exact .createdDirectory hdirectory fun m hm => absurd (hrecorded.symm.trans hm) nofun
    | some m =>
      rw [h.modes.mode m _ ⟨_, hslot₃, rfl, hrecorded, rfl⟩]
      refine .createdDirectory hdirectory fun m' hm' => ?_
      rw [Option.some.inj (hrecorded.symm.trans hm')]

/-- What a slot tells that was pending. -/
theorem tells_of_pending (huntried : ∀ slot ∈ slots, slot.Untried) {i : Nat}
    (hslot : (slots₂.filter (·.isPending))[i]? = some slot)
    (hslot₃ : { slot with outcome := os[i]? } ∈ settledSlots slots₂ os) :
    Slot.Tells options image real s₁.fs s₄.fs { slot with outcome := os[i]? } := by
  obtain ⟨hmem, hpending⟩ := List.mem_filter.1 (List.mem_of_getElem? hslot)
  rw [Slot.isPending, Bool.and_eq_true, Bool.and_eq_true, Option.isNone_iff_eq_none] at hpending
  obtain ⟨⟨hfile, hopen⟩, -⟩ := hpending
  obtain ⟨slot₁, hslot₁, hvisited⟩ := exists_of_forall₂ h.directories.visited hmem
  obtain rfl : slot = slot₁ := by
    cases hvisited with
    | untouched => rfl
    | _ => cases hopen
  have hunmade := (huntried slot hslot₁).made
  have hbefore := h.get?_directories hdiffer hmem hunmade
  have hafter := h.get?_modes hdiffer hslot₃ hunmade
  dsimp only at hafter
  have hpendingDiffer : HomesDiffer real (slots₂.filter (·.isPending)) :=
    (h.homesDiffer₂ hdiffer).sublist List.filter_sublist
  cases ho : os[i]? with
  | none =>
    refine Slot.tells_of_eq (by rintro _ ⟨⟩) ?_
    dsimp only
    rw [hafter, ← hbefore]
    refine h.files.other _ fun j slot' hj hslot' => hpendingDiffer.ne hslot hslot' ?_
    rintro rfl
    rw [List.getElem?_eq_getElem hj] at ho
    cases ho
  | some o =>
    rcases h.files.done i slot o hslot ho with ⟨hwithin, stageable, result, hsettled, rfl, -⟩ | ⟨-, hsame, err, rfl⟩
    · rw [hbefore, ← hafter] at hsettled
      have hkeeps := h.files.frame.keeps.trans h.modes.keeps
      exact ⟨hsettled.told hfile, fun hne => ⟨hwithin.keeps hkeeps, hsettled.isAcceptable_of_ne hne⟩⟩
    · refine Slot.tells_of_eq ?_ ?_
      · rintro _ ⟨⟩
        exact ⟨_, _, rfl⟩
      · dsimp only
        rw [hafter, hsame, hbefore]

/-- **Every slot tells what became of the home of its entry.** -/
theorem tells (huntried : ∀ slot ∈ slots, slot.Untried) (hslot : slot ∈ settledSlots slots₂ os) :
    slot.Tells options image real s₁.fs s₄.fs := by
  rcases mem_settledSlots hslot with ⟨hmem, hpending⟩ | ⟨i, slot', hslot', rfl⟩
  · exact h.tells_of_not_pending hdiffer huntried hmem hslot hpending
  · exact h.tells_of_pending hdiffer huntried hslot' hslot

omit hdiffer in
/-- What is no home of an entry stays as it is. -/
theorem agreeOutside : AgreeOutside (IsHome real slots) s₁.fs s₄.fs := by
  have hentries₂ := h.directories.map_entry
  have hentries₃ := (map_entry_settledSlots slots₂ os).trans hentries₂
  have hdirectories : AgreeOutside (IsHome real slots) s₁.fs s₂.fs := by
    refine h.directories.makes.outside.imp ?_
    rintro q ⟨slot, hslot, -, rfl⟩
    exact (isHome_of_map_entry hentries₂ _).1 ⟨slot, hslot, rfl⟩
  have hfiles : AgreeOutside (IsHome real slots) s₂.fs s₃.fs := by
    refine ⟨h.files.frame.cwd, h.files.frame.executable, fun q hq => h.files.other q ?_⟩
    rintro i slot - hslot rfl
    have hmem := (List.mem_filter.1 (List.mem_of_getElem? hslot)).1
    exact hq ((isHome_of_map_entry hentries₂ _).1 ⟨slot, hmem, rfl⟩)
  have hmodes : AgreeOutside (IsHome real slots) s₃.fs s₄.fs := by
    refine h.modes.outside.imp ?_
    rintro q ⟨mode, slot, hslot, -, -, rfl⟩
    exact (isHome_of_map_entry hentries₃ _).1 ⟨slot, hslot, rfl⟩
  exact (hdirectories.trans hfiles).trans hmodes

end Passes

end Passes

/-! ## A whole run -/

theorem aimed_of_sanitize (hnames : names.IsProper) (hroot : fs.LeadsTo names.toPath real)
    (hlinks : NoLinksBelow real fs) (hp : slot.destination = some p)
    (hsanitized : sanitize names.toPath slot.entry.path = .ok p) : slot.Aimed fs real := by
  obtain ⟨front, hfront⟩ := slot.entry.exists_names
  obtain ⟨hproper, rfl⟩ := exists_destination hnames hsanitized hfront
  refine ⟨names ++ front, hproper, hp, fun d hd => ?_⟩
  exact hlinks.eq_folder hroot hnames hsanitized (names_destination hnames hsanitized hfront hd)

theorem reaches_settledSlots (os : List Outcome) (h : ∀ slot ∈ slots, slot.Reaches real fs) :
    ∀ slot ∈ settledSlots slots os, slot.Reaches real fs := by
  intro slot hslot
  rcases mem_settledSlots hslot with ⟨hmem, -⟩ | ⟨i, slot', hslot', rfl⟩
  · exact h slot hmem
  · exact h slot' (List.mem_filter.1 (List.mem_of_getElem? hslot')).1

/-- The passes of a run with one worker that ends in a report. -/
theorem run_execute (hquiet : options.IsQuiet) (hone : options.workers ≤ 1) (schedule : List Nat)
    (hplan : plan.options = options) (hroot : plan.Rooted names real s.fs) (hlinks : NoLinksBelow real s.fs)
    (hopened : List.Forall₂ (fun e slot => Slot.Opened plan.root e slot) entries slots)
    (hdiffer : HomesDiffer real slots) {report : Report}
    (h : plan.execute schedule image slots s = (.ok report, s')) :
    ∃ slots₂ os s₂ s₃, Passes options image real slots slots₂ os s s₂ s₃ s' ∧
      ∃ bytesWritten cancelled,
        report = .new plan.root ((settledSlots slots₂ os).map (·.report)) bytesWritten cancelled := by
  have hfrom : ∀ slot ∈ slots, ∃ e, slot.Opened plan.root e := fun slot hslot => by
    obtain ⟨e, -, hslot⟩ := exists_of_forall₂ hopened hslot
    exact ⟨e, hslot⟩
  have hdestinations : ∀ slot ∈ slots, ∀ p, slot.destination = some p →
      sanitize plan.root slot.entry.path = .ok p := by
    intro slot hslot p hp
    obtain ⟨e, hslot⟩ := hfrom slot hslot
    exact hslot.destination hp
  have hunmade : ∀ slot ∈ slots, slot.made = false := by
    intro slot hslot
    obtain ⟨e, hslot⟩ := hfrom slot hslot
    exact hslot.made
  rw [RunPlan.execute, hplan] at h
  cases hpass : (plan.directories slots).run (RunState.handler options) s with
  | mk result s₂ =>
    rw [hpass] at h
    cases result with
    | error err => cases h
    | ok slots₂ =>
      have hdirectories := run_directories hquiet hroot hlinks hdestinations hunmade hdiffer hpass
      have hroot₂ := hroot.keeps hdirectories.makes.keeps
      have hlinks₂ := hlinks.makesDirectories hdirectories.makes
      have hdiffer₂ := hdiffer.of_map_entry hdirectories.map_entry
      have haimed : ∀ slot ∈ slots₂.filter (·.isPending), slot.Aimed s₂.fs real := by
        intro slot hslot
        obtain ⟨hmem, hpending⟩ := List.mem_filter.1 hslot
        rw [Slot.isPending, Bool.and_eq_true, Option.isSome_iff_exists] at hpending
        obtain ⟨-, p, hp⟩ := hpending
        obtain ⟨slot₁, hslot₁, hvisited⟩ := exists_of_forall₂ hdirectories.visited hmem
        have hsanitized := hdestinations slot₁ hslot₁ p (hvisited.destination ▸ hp)
        rw [← hvisited.entry, hroot.root] at hsanitized
        exact aimed_of_sanitize hroot.properNames hroot₂.leads hlinks₂ hp hsanitized
      cases hfiles : plan.files schedule image (slots₂.filter (·.isPending)) s₂ with
      | mk results s₃ =>
        obtain ⟨os, hinOrder, rfl, -⟩ := files_in_order hquiet hplan hroot.properReal hroot.realRoot haimed
          (hdiffer₂.sublist List.filter_sublist) hone schedule hfiles
        simp only [hfiles] at h
        cases hfatal : s₃.fatal with
        | some cause =>
          simp only [hfatal] at h
          cases h
        | none =>
          simp only [hfatal] at h
          have hreaches := reaches_settledSlots os fun slot hslot =>
            (hdirectories.reaches slot hslot).keeps hinOrder.frame.keeps
          obtain ⟨cancelled, s₄, hconclude, hmodes⟩ := run_conclude options plan s₃.bytesWritten
            (hdiffer₂.of_map_entry (map_entry_settledSlots slots₂ os)) hreaches
          rw [settledSlots] at hconclude
          rw [hconclude] at h
          cases h
          exact ⟨slots₂, os, s₂, s₃, ⟨hdirectories, hinOrder, hmodes⟩, _, cancelled, rfl⟩

/-- What stands at the end of a path, be it a link. -/
def FileSystem.at? (fs : FileSystem) (p : Path) : Option Node := (fs.find false p).toOption.map (·.2)

/-- A report tells the truth about a run from `fs` to `fs'`: what became of the destination of every entry.
    Nothing else is different but directories on the way to the real root, which were missing. -/
structure Report.Tells (options : ExtractOptions) (image : Image) (entries : List Entry) (real : RealPath)
    (fs fs' : FileSystem) (report : Report) : Prop where
  told : List.Forall₂ (fun e r => r.path = e.path ∧ r.kind = e.kind ∧
    ∀ p, sanitize report.target e.path = .ok p →
      Told options e (image.content e) r.outcome (fs.at? p) (fs'.at? p)) entries report.entries
  other : AgreeOutside (fun q => (q <+: real ∧ fs.get? q = none ∧ fs'.isDirectoryAt q = true) ∨
    ∃ r ∈ report.entries, r.outcome.isWritten = true ∧
      ∃ p x, sanitize report.target r.path = .ok p ∧ fs'.find false p = .ok (q, x)) fs fs'

section Reports

variable {slots₂ : List Slot} {os : List Outcome} {s₁ s₂ s₃ s₄ : RunState}

theorem Passes.keeps (h : Passes options image real slots slots₂ os s₁ s₂ s₃ s₄) : Keeps s₁.fs s₄.fs :=
  h.directories.makes.keeps.trans (h.files.frame.keeps.trans h.modes.keeps)

/-- After the passes there are no links below the real root either. -/
theorem Passes.noLinksBelow (h : Passes options image real slots slots₂ os s₁ s₂ s₃ s₄)
    (hdiffer : HomesDiffer real slots) (huntried : ∀ slot ∈ slots, slot.Untried)
    (hlinks : NoLinksBelow real s₁.fs) : NoLinksBelow real s₄.fs := by
  intro q target hq hget
  have hchanged : s₄.fs.get? q ≠ s₁.fs.get? q := by
    intro hsame
    exact hlinks q target hq (hsame ▸ hget)
  obtain ⟨slot, hslot, rfl⟩ := (isHome_of_map_entry ((map_entry_settledSlots slots₂ os).trans
    h.directories.map_entry) q).2 (h.agreeOutside.of_changed hchanged)
  obtain ⟨x, hx, hkind⟩ := (h.tells hdiffer huntried hslot).told.exists_of_ne hchanged
  obtain rfl := Option.some.inj (hx.symm.trans hget)
  exact hkind rfl

end Reports

end TreeImage
