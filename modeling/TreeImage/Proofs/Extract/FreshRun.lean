import TreeImage.Proofs.Extract.Account
import TreeImage.Proofs.Extract.FreshPasses
import TreeImage.Proofs.Extract.FreshTarget
import TreeImage.Proofs.Extract.Success

set_option autoImplicit false

/-! # Fresh runs

A run with a fresh target that nothing stops makes every directory, and writes every file whose temporary
file can have a name and whose content has its digest. Below the real root there is nothing else
(`extract_unpacks`). A listener that changes the file system, or a worker that meets the temporary file of
another, can make it otherwise (`fresh_not_unpacked`). -/

namespace TreeImage

open FileSystem

variable {names real : RealPath} {fs fs' : FileSystem} {p : Path} {e : Entry} {slot : Slot} {slots : List Slot}
  {plan : RunPlan} {options : ExtractOptions} {image : Image} {content : Bytes} {o : Outcome} {s s' : RunState}

/-! ## Outcomes -/

/-- The longest name of a file for which temporary files have names that a directory can hold. -/
def stagedNameLimit : Nat := 243

/-- What becomes of an entry with this content whose home is free: its outcome, and what stands there
    afterwards. A name that is too long shows before the content does. -/
inductive Unpacked (e : Entry) (content : Bytes) : Outcome → Option Node → Prop
  | directory {mode : UInt32} (hkind : e.isFile = false) (hmode : e.Recorded mode) :
      Unpacked e content .created (some (.directory mode))
  | file {mode : UInt32} (hkind : e.isFile = true) (hshort : e.name.length ≤ stagedNameLimit)
      (hdigest : Digest.of content = e.digest) (hmode : e.Recorded mode) :
      Unpacked e content .created (some (.file mode content))
  | crowded {message : String} (hkind : e.isFile = true) (hlong : stagedNameLimit < e.name.length) :
      Unpacked e content (.failed .write message) none
  | corrupt {message : String} (hkind : e.isFile = true) (hshort : e.name.length ≤ stagedNameLimit)
      (hdigest : Digest.of content ≠ e.digest) :
      Unpacked e content (.failed .writeVerification message) none

/-- What becomes of a file whose home is free. -/
theorem FileSettled.unpacked {stageable : Prop} {v : Option Node} {result : Except ExtractError Outcome}
    (h : FileSettled options e e.name content stageable none result v) (hfile : e.isFile = true)
    (hnul : e.name.contains 0 = false) (hstageable : stageable ↔ e.name.length + 12 ≤ nameLimit) :
    Unpacked e content (.ofResult result) v := by
  have hlimit : stagedNameLimit + 12 = nameLimit := rfl
  cases h with
  | @refused _ err hkind hn =>
    have hlong : stagedNameLimit < e.name.length := by
      have := mt (fun hshort => (⟨hnul, hshort⟩ : IsAcceptable e.name)) hn
      omega
    show Unpacked e content (.failed err.kind err.message) none
    rw [hkind]
    exact .crowded hfile hlong
  | @crowded _ err hkind hstage =>
    rw [hstageable] at hstage
    show Unpacked e content (.failed err.kind err.message) none
    rw [hkind]
    exact .crowded hfile (by omega)
  | @corrupt _ err hkind hstage hdigest =>
    rw [hstageable] at hstage
    show Unpacked e content (.failed err.kind err.message) none
    rw [hkind]
    exact .corrupt hfile (by omega) hdigest
  | created hn hstage hdigest =>
    rw [hstageable] at hstage
    refine .file hfile (by omega) hdigest ?_
    intro m hm
    rw [hm]
    rfl

/-- What becomes of a directory whose home is free: it is made, and has the mode that was set. -/
theorem unpacked_directory (hdirectory : e.isFile = false) {node : Option Node}
    (hnode : ∃ mode, node = some (.directory mode))
    (hmode : ∀ m, e.mode = some m → node = some (.directory (m &&& modeMask))) :
    Unpacked e content .created node := by
  obtain ⟨mode, rfl⟩ := hnode
  refine .directory hdirectory fun m hm => ?_
  cases hmode m hm
  rfl

/-! ## Names of temporary files -/

/-- No entry has the path of a temporary file for one of them. -/
def PathsApart (entries : List Entry) : Prop :=
  ∀ e ∈ entries, ∀ e' ∈ entries, e.parent? = e'.parent? → ∀ n, e.name ≠ temporaryName e'.name n

/-- Entries with names of one length have paths apart. -/
theorem pathsApart_of_length {entries : List Entry} {k : Nat} (h : ∀ e ∈ entries, e.name.length = k) :
    PathsApart entries := by
  intro e he e' he' _ n heq
  have hlonger := length_lt_temporaryName e'.name n
  rw [← heq, h e he, h e' he'] at hlonger
  omega

/-- Entries in one directory have one parent. -/
theorem parent?_eq_of_folder_eq {e e' : Entry} (h : e.folder real = e'.folder real) : e.parent? = e'.parent? := by
  obtain ⟨front, hfront⟩ := e.exists_names
  obtain ⟨front', hfront'⟩ := e'.exists_names
  rw [e.folder_eq real hfront, e'.folder_eq real hfront'] at h
  obtain rfl := List.append_cancel_left h
  have hparent : ∀ (e : Entry) (front : RealPath), entryNames e.path = front ++ [e.name] →
      (e.parent? = none ∧ front = []) ∨ ∃ parent, e.parent? = some parent ∧ front = entryNames parent := by
    intro e front hfront
    cases hparent : e.parent? with
    | none =>
      rw [entryNames_of_parentPath?_eq_none hparent, ← List.nil_append [utf8 (lastSegment e.path)]] at hfront
      exact .inl ⟨rfl, (List.append_cancel_right hfront).symm⟩
    | some parent =>
      rw [entryNames_of_parentPath? hparent] at hfront
      exact .inr ⟨parent, rfl, (List.append_cancel_right hfront).symm⟩
  obtain ⟨he, rfl⟩ | ⟨parent, he, rfl⟩ := hparent e front hfront
  · obtain ⟨he', -⟩ | ⟨parent', -, hnil⟩ := hparent e' [] hfront'
    · rw [he, he']
    · exact absurd hnil.symm (entryNames_ne_nil parent')
  · obtain ⟨-, hnil⟩ | ⟨parent', he', hsame⟩ := hparent e' _ hfront'
    · exact absurd hnil (entryNames_ne_nil parent)
    · rw [he, he', entryNames_injective hsame]

/-- Files with paths apart are worked at in different places. -/
theorem PathsApart.workApart {pending : List Slot} (h : PathsApart (pending.map (·.entry)))
    (hdiffer : HomesDiffer real pending) : WorkApart real pending := by
  have hplace : ∀ slot ∈ pending, ∀ slot' ∈ pending, ∀ i,
      slot.entry.folder real ++ [slot.name] ≠ stagingPlace (slot'.entry.folder real) slot'.name i := by
    intro slot hslot slot' hslot' i heq
    obtain ⟨hfolder, hname⟩ := List.append_inj' heq rfl
    exact h _ (List.mem_map_of_mem hslot) _ (List.mem_map_of_mem hslot') (parent?_eq_of_folder_eq hfolder) i
      (List.singleton_inj.1 hname)
  intro i j slot slot' hslot hslot' hne
  have hmem := List.mem_of_getElem? hslot
  have hmem' := List.mem_of_getElem? hslot'
  refine workPlace_disjoint ?_ (hplace slot hmem slot' hmem') (hplace slot' hmem' slot hmem)
  have hhomes := hdiffer.ne hslot hslot' hne
  rwa [slot.entry.home_eq, slot'.entry.home_eq] at hhomes

/-! ## The passes -/

/-- The file slots after the passes over directories. -/
def pendingSlots (slots : List Slot) : List Slot := (slots.map Slot.entered).filter (·.isPending)

theorem map_entry_entered (slots : List Slot) : (slots.map Slot.entered).map (·.entry) = slots.map (·.entry) := by
  rw [List.map_map]
  exact List.map_congr_left fun slot _ => slot.entry_entered

theorem Slot.Accepted.isPending_entered {root : Path} (h : slot.Accepted root) :
    slot.entered.isPending = slot.entry.isFile := by
  obtain ⟨p, hp, -⟩ := h.destination
  rw [isPending, entry_entered, destination_entered, hp, entered]
  cases hfile : slot.entry.isFile with
  | true => rw [if_pos rfl, h.outcome]; rfl
  | false => rfl

/-- Pending slots are those of file entries, and as they were. -/
theorem mem_pendingSlots (h : slot ∈ pendingSlots slots) : slot ∈ slots ∧ slot.entry.isFile = true := by
  obtain ⟨hmem, hpending⟩ := List.mem_filter.1 h
  obtain ⟨slot, hslot, rfl⟩ := List.mem_map.1 hmem
  have hfile : slot.entry.isFile = true := by
    rw [Slot.isPending, Slot.entry_entered, Bool.and_assoc, Bool.and_eq_true] at hpending
    exact hpending.1
  rw [Slot.entered, hfile, if_pos rfl]
  exact ⟨hslot, hfile⟩

/-- What a slot says is what became of its entry. -/
def Slot.Unpacks (image : Image) (real : RealPath) (fs : FileSystem) (slot : Slot) : Prop :=
  Unpacked slot.entry (image.content slot.entry) (slot.outcome.getD .notAttempted)
    (fs.get? (slot.entry.home real))

/-- The passes of a fresh run, from `fs₁` to `fs₄`: all directories are made, every file is dealt with, and
    directories get their modes. -/
structure FreshPasses (options : ExtractOptions) (image : Image) (plan : RunPlan) (names real : RealPath)
    (slots : List Slot) (os : List Outcome) (fs₁ fs₂ fs₃ fs₄ : FileSystem) : Prop where
  start : FreshSlots plan names real fs₁ slots
  directories : PassResult real fs₁ slots (slots.map Slot.entered) fs₂
  frame : SameFrame fs₂ fs₃
  other : AgreeOutside (IsHome real (pendingSlots slots)) fs₂ fs₃
  length : os.length = (pendingSlots slots).length
  files : ∀ (i : Nat) (slot : Slot) (o : Outcome), (pendingSlots slots)[i]? = some slot → os[i]? = some o →
    slot.Settled options image real fs₂ fs₃ (IsHome real (pendingSlots slots)) o
  modes : SetsModes real (settledSlots (slots.map Slot.entered) os) fs₃ fs₄

namespace FreshPasses

variable {os : List Outcome} {fs₁ fs₂ fs₃ fs₄ : FileSystem}
  (h : FreshPasses options image plan names real slots os fs₁ fs₂ fs₃ fs₄)

include h

theorem keeps : Keeps fs₁ fs₄ := h.directories.makes.keeps.trans (h.frame.keeps.trans h.modes.keeps)

/-- What is no home of an entry stays as it is. -/
theorem agreeOutside : AgreeOutside (IsHome real slots) fs₁ fs₄ := by
  have hentries := map_entry_entered slots
  have hentries₃ := (map_entry_settledSlots (slots.map Slot.entered) os).trans hentries
  refine (h.directories.makes.outside.imp ?_).trans ((h.other.imp ?_).trans (h.modes.outside.imp ?_))
  · rintro q ⟨slot, hslot, -, rfl⟩
    exact (isHome_of_map_entry hentries _).1 ⟨slot, hslot, rfl⟩
  · rintro q ⟨slot, hslot, rfl⟩
    exact ⟨slot, (mem_pendingSlots hslot).1, rfl⟩
  · rintro q ⟨mode, slot, hslot, -, -, rfl⟩
    exact (isHome_of_map_entry hentries₃ _).1 ⟨slot, hslot, rfl⟩

/-- A directory was made, and has its mode in the end. -/
theorem unpacks_directory (hslot : slot ∈ slots) (hdirectory : slot.entry.isFile = false)
    (hslot₃ : slot.entered ∈ settledSlots (slots.map Slot.entered) os) :
    slot.entered.Unpacks image real fs₄ := by
  have hmade : slot.entered = { slot with outcome := some .created, made := true } := by
    rw [Slot.entered, hdirectory]
    rfl
  have hmem := List.mem_map_of_mem (f := Slot.entered) hslot
  have hthere := (h.directories.makes.made _ ⟨_, hmem, by rw [hmade], rfl⟩).2
  have hfiles : fs₃.isDirectoryAt (slot.entered.entry.home real) = true := h.frame.keeps.directory _ hthere
  rw [Slot.Unpacks, hmade]
  rw [hmade] at hslot₃ hfiles
  refine unpacked_directory hdirectory (isDirectoryAt_iff.1 (h.modes.keeps.directory _ hfiles)) fun m hm => ?_
  exact h.modes.mode m _ ⟨_, hslot₃, rfl, hm, rfl⟩

/-- Only directories are made. -/
theorem directory_of_made (hslot : slot ∈ settledSlots (slots.map Slot.entered) os) (hmade : slot.made = true) :
    ∃ slot' ∈ slots, slot'.entry = slot.entry ∧ slot.entry.isFile = false := by
  have hunmade : ∀ slot ∈ slots, slot.entry.isFile = true → slot.entered.made = false := by
    intro slot hslot hfile
    rw [Slot.entered, hfile, if_pos rfl, (h.start.accepted slot hslot).made]
  rcases mem_settledSlots hslot with ⟨hmem, -⟩ | ⟨i, slot', hslot', rfl⟩
  · obtain ⟨slot', hslot', rfl⟩ := List.mem_map.1 hmem
    refine ⟨slot', hslot', slot'.entry_entered.symm, ?_⟩
    rw [Slot.entry_entered, ← Bool.not_eq_true]
    intro hfile
    cases (hunmade slot' hslot' hfile).symm.trans hmade
  · obtain ⟨hmem, -⟩ := mem_pendingSlots (List.mem_of_getElem? hslot')
    cases (h.start.accepted slot' hmem).made.symm.trans hmade

/-- What stands below the real root after the directory pass is the home of a directory. -/
theorem get?_directories {q : RealPath} (hq : real.Contains q)
    (hnone : ∀ slot ∈ slots, slot.entry.isFile = false → q ≠ slot.entry.home real) : fs₂.get? q = none := by
  rw [h.directories.makes.outside.get? q, h.start.empty q hq]
  rintro ⟨_, hmem, hmade, heq⟩
  obtain ⟨slot, hslot, rfl⟩ := List.mem_map.1 hmem
  rw [Slot.entry_entered] at heq
  cases hfile : slot.entry.isFile with
  | false => exact hnone slot hslot hfile heq
  | true =>
    rw [Slot.entered, hfile, if_pos rfl, (h.start.accepted slot hslot).made] at hmade
    cases hmade

/-- There is a free name for every temporary file. -/
theorem exists_free (hcount : slots.length < 62 ^ 6) (slot : Slot) :
    ∃ m < 62 ^ 6, fs₂.get? (stagingPlace (slot.entry.folder real) slot.name m) = none ∧
      ¬IsHome real (pendingSlots slots) (stagingPlace (slot.entry.folder real) slot.name m) := by
  obtain ⟨m, hm, hfree⟩ := exists_stagingPlace_not_mem (slot.entry.folder real) slot.name
    (slots.map (·.entry.home real))
  rw [List.length_map] at hm
  have hnone : ∀ slot' ∈ slots, stagingPlace (slot.entry.folder real) slot.name m ≠ slot'.entry.home real :=
    fun slot' hslot' heq => hfree (List.mem_map.2 ⟨slot', hslot', heq.symm⟩)
  refine ⟨m, Nat.lt_of_le_of_lt hm hcount, ?_, ?_⟩
  · exact h.get?_directories (.append (slot.entry.prefix_folder real) _) fun slot' hslot' _ => hnone slot' hslot'
  · rintro ⟨slot', hslot', heq⟩
    exact hnone slot' (mem_pendingSlots hslot').1 heq

/-- A file was dealt with, and nothing was done to it afterwards. -/
theorem unpacks_file (hcount : slots.length < 62 ^ 6) {i : Nat} (hslot : (pendingSlots slots)[i]? = some slot) :
    Slot.Unpacks image real fs₄ { slot with outcome := os[i]? } := by
  have hlt : i < os.length := h.length ▸ (List.getElem?_eq_some_iff.1 hslot).1
  have ho := List.getElem?_eq_getElem hlt
  obtain ⟨hmem, hfile⟩ := mem_pendingSlots (List.mem_of_getElem? hslot)
  obtain ⟨stageable, result, hsettled, hresult, hstageable⟩ := h.files i slot os[i] hslot ho
  obtain ⟨m, hm, hfree, htaken⟩ := h.exists_free hcount slot
  obtain ⟨p, -, hsanitized⟩ := (h.start.accepted slot hmem).destination
  have hnul := contains_of_sanitize hsanitized
  obtain ⟨front, hfront⟩ := slot.entry.exists_names
  -- the homes of other entries are elsewhere
  have hbefore : fs₂.get? (slot.entry.home real) = none := by
    refine h.get?_directories (slot.entry.contains_home real) fun slot' hslot' hdirectory heq => ?_
    rw [h.start.differ.eq hmem hslot' heq] at hfile
    cases hdirectory.symm.trans hfile
  have hafter : fs₄.get? (slot.entry.home real) = fs₃.get? (slot.entry.home real) := by
    refine h.modes.outside.get? _ ?_
    rintro ⟨mode, slot', hslot', hmade, -, heq⟩
    obtain ⟨slot'', hslot'', hentry, hdirectory⟩ := h.directory_of_made hslot' hmade
    rw [← hentry] at heq hdirectory
    rw [h.start.differ.eq hmem hslot'' heq] at hfile
    cases hdirectory.symm.trans hfile
  rw [Slot.Unpacks, ho, hafter]
  rw [hbefore] at hsettled
  have hname : slot.entry.name.contains 0 = false := by
    refine hnul _ ?_
    rw [hfront]
    exact List.mem_append_right _ (List.mem_singleton_self _)
  have hunpacked := hsettled.unpacked hfile hname (hstageable m hm hfree htaken)
  rwa [← hresult] at hunpacked

/-- **What every slot says in the end is what became of its entry.** -/
theorem unpacks (hcount : slots.length < 62 ^ 6) (hslot : slot ∈ settledSlots (slots.map Slot.entered) os) :
    slot.Unpacks image real fs₄ := by
  rcases mem_settledSlots hslot with ⟨hmem, hpending⟩ | ⟨i, slot', hslot', rfl⟩
  · obtain ⟨slot', hslot', rfl⟩ := List.mem_map.1 hmem
    rw [(h.start.accepted slot' hslot').isPending_entered] at hpending
    exact h.unpacks_directory hslot' hpending hslot
  · exact h.unpacks_file hcount hslot'

end FreshPasses

/-! ## A whole run -/

/-- **A fresh run that nothing stops ends in a report.** -/
theorem FreshSlots.run_execute (image : Image) (h : FreshSlots plan names real s.fs slots) (hquiet : options.IsQuiet)
    (hnever : options.NeverCancels) (hstop : options.stopOnFirstError = false) (hcalm : s.IsCalm)
    (hplan : plan.options = options)
    (hapart : 1 < options.workers → PathsApart ((slots.map (·.entry)).filter (·.isFile))) (schedule : List Nat) :
    ∃ os s' fs₂ fs₃ bytesWritten cancelled, plan.execute schedule image slots s =
        (.ok (.new plan.root ((settledSlots (slots.map Slot.entered) os).map (·.report)) bytesWritten cancelled), s') ∧
      FreshPasses options image plan names real slots os s.fs fs₂ fs₃ s'.fs := by
  obtain ⟨s₂, hdirectories, hcalm₂, hpass⟩ := h.run_directories hquiet hnever hcalm
  have hdiffer₂ := h.differ.of_map_entry (map_entry_entered slots)
  have hpending : HomesDiffer real (pendingSlots slots) := hdiffer₂.sublist List.filter_sublist
  have hwithin : ∀ slot ∈ pendingSlots slots, slot.Within s₂.fs real :=
    fun slot hslot => h.within hpass slot (mem_pendingSlots hslot).1
  have hworkApart : 1 < options.workers → WorkApart real (pendingSlots slots) := by
    intro hmany
    have hfiles : ∀ e ∈ (pendingSlots slots).map (·.entry), e ∈ (slots.map (·.entry)).filter (·.isFile) := by
      intro e he
      obtain ⟨slot, hslot, rfl⟩ := List.mem_map.1 he
      obtain ⟨hmem, hfile⟩ := mem_pendingSlots hslot
      exact List.mem_filter.2 ⟨List.mem_map_of_mem hmem, hfile⟩
    exact PathsApart.workApart (fun e he e' he' => hapart hmany e (hfiles e he) e' (hfiles e' he')) hpending
  obtain ⟨os, s₃, hfiles, hlength, hcalm₃, hframe, hother, hsettled⟩ := files_undisturbed image hquiet
    hnever hstop hcalm₂ hplan (h.root.keeps hpass.makes.keeps) hwithin hpending hworkApart schedule
  have hreaches := reaches_settledSlots os fun slot hslot => (hpass.reaches slot hslot).keeps hframe.keeps
  obtain ⟨cancelled, s₄, hconclude, hmodes⟩ := run_conclude options plan s₃.bytesWritten
    (hdiffer₂.of_map_entry (map_entry_settledSlots _ os)) hreaches
  refine ⟨os, s₄, s₂.fs, s₃.fs, s₃.bytesWritten, cancelled, ?_, h, hpass, hframe, hother, hlength, hsettled, hmodes⟩
  rw [RunPlan.execute, hplan, hdirectories]
  rw [settledSlots] at hconclude
  unfold pendingSlots at hfiles
  simp only [hfiles, hcalm₃.fatal, hconclude]
  rfl

/-- Everything below the real root is told of: every entry has the outcome that its name and its content lead
    to, what stands at its home is what the outcome says, and nothing stands anywhere else. -/
structure Report.Unpacks (image : Image) (real : RealPath) (fs : FileSystem) (report : Report) : Prop where
  entries : List.Forall₂ (fun e r => r.path = e.path ∧ r.kind = e.kind ∧
    Unpacked e (image.content e) r.outcome (fs.get? (e.home real))) image.manifest.entries report.entries
  other : ∀ q, real.Contains q → (∀ e ∈ image.manifest.entries, q ≠ e.home real) → fs.get? q = none

theorem FreshPasses.report_unpacks {os : List Outcome} {fs₁ fs₂ fs₃ fs₄ : FileSystem}
    (h : FreshPasses options image plan names real slots os fs₁ fs₂ fs₃ fs₄)
    (hentries : slots.map (·.entry) = image.manifest.entries) (hcount : slots.length < 62 ^ 6) (root : Path)
    (bytesWritten : Nat) (cancelled : Bool) : Report.Unpacks image real fs₄
      (.new root ((settledSlots (slots.map Slot.entered) os).map (·.report)) bytesWritten cancelled) := by
  constructor
  · show List.Forall₂ _ _ ((settledSlots (slots.map Slot.entered) os).map (·.report))
    rw [← hentries, ← map_entry_entered, ← map_entry_settledSlots _ os, List.forall₂_map_left_iff,
      List.forall₂_map_right_iff, List.forall₂_same]
    exact fun slot hslot => ⟨rfl, rfl, h.unpacks hcount hslot⟩
  · intro q hq hnone
    rw [h.agreeOutside.get? q, h.start.empty q hq]
    rintro ⟨slot, hslot, heq⟩
    exact hnone _ (hentries ▸ List.mem_map_of_mem hslot) heq

/-- An image that can be unpacked below a target without trouble over paths: its manifest passed the checks and
    is not too long, all its paths are accepted, and directories have names that a directory can hold. -/
structure Image.Unpackable (image : Image) (root : Path) : Prop where
  valid : ∃ blobLength, image.manifest.validate blobLength = .ok ()
  size : image.manifest.size < byteCapacity 4
  accepted : ∀ e ∈ image.manifest.entries, ∃ p, sanitize root e.path = .ok p
  named : ∀ e ∈ image.manifest.entries, e.isFile = false → e.name.length ≤ nameLimit

/-- **A run with a fresh target that nothing stops comes to its end**, with a report that counts its entries. -/
theorem run_extract_fresh_new {root : Path} (himage : image.Unpackable root) (hquiet : options.IsQuiet)
    (hnever : options.NeverCancels) (hstop : options.stopOnFirstError = false) (hfilter : options.filter = none)
    (hapart : 1 < options.workers → PathsApart image.manifest.files) (schedule : List Nat) {target : Option Path}
    (hclosed : fs.IsClosed) (hroot : resolveRoot fs.cwd.toPath fs.executable options.defaultRoot target = .ok root)
    (hfresh : FreshTarget fs root) :
    ∃ entries bytesWritten cancelled s real,
      extract options schedule image target (.start fs options) =
        (.ok (.new root entries bytesWritten cancelled), s) ∧
      s.fs.LeadsTo root real ∧ Report.Unpacks image real s.fs (.new root entries bytesWritten cancelled) := by
  obtain ⟨names, hnames, rfl⟩ := resolveRoot_eq_ok hroot
  obtain ⟨blobLength, hvalid⟩ := himage.valid
  obtain ⟨hentries, hparents⟩ := Manifest.validate_eq_ok hvalid
  have hselect : image.manifest.select options.filter = image.manifest.entries := by rw [hfilter]; rfl
  obtain ⟨slots, hslots⟩ := exists_slotsFor options.strict himage.accepted
  rw [← hselect] at hslots
  obtain ⟨real, s₁, hprepare, hmade, hcalm⟩ := run_prepare_fresh hnever (RunState.isCalm_start hnever fs) hclosed
    hnames hroot hslots hfresh
  have hopened := slotsFor_opened hslots
  rw [hselect] at hopened
  have hmap := map_entry_of_opened hopened
  have hcount : slots.length < 62 ^ 6 := by
    have hlength : slots.length = image.manifest.size := by rw [Manifest.size, ← hmap, List.length_map]
    have := himage.size
    have hcapacity : byteCapacity 4 < 62 ^ 6 := by decide
    omega
  have hstart : FreshSlots (planFor options names.toPath real.toPath slots) names real s₁.fs slots := by
    refine ⟨⟨hnames, rfl, rfl, hmade.leads⟩, fun q => hfresh.get?_below hnames hclosed hmade, ?_, ?_, ?_, ?_⟩
    · intro slot hslot
      obtain ⟨e, he, hslot⟩ := exists_of_forall₂ hopened hslot
      obtain ⟨p, hp⟩ := himage.accepted e he
      obtain ⟨hdestination, houtcome⟩ := hslot.of_sanitize hp
      exact ⟨⟨p, hdestination, hslot.entry ▸ hp⟩, houtcome, hslot.made⟩
    · intro slot hslot hdirectory
      have he : slot.entry ∈ image.manifest.entries := hmap ▸ List.mem_map_of_mem hslot
      obtain ⟨p, hp⟩ := himage.accepted _ he
      obtain ⟨front, hfront⟩ := slot.entry.exists_names
      refine ⟨contains_of_sanitize hp _ ?_, himage.named _ he hdirectory⟩
      rw [hfront]
      exact List.mem_append_right _ (List.mem_singleton_self _)
    · refine homesDiffer_of_paths ?_ real
      have hpaths : slots.map (·.entry.path) = (slots.map (·.entry)).map (·.path) := by
        rw [List.map_map]
        rfl
      rw [hpaths, hmap]
      exact (Manifest.checkEntries_eq_ok_iff.1 hentries).2.2.1
    · rw [hmap]
      exact hparents
  have hapart' : 1 < options.workers → PathsApart ((slots.map (·.entry)).filter (·.isFile)) := by
    rw [hmap]
    exact hapart
  obtain ⟨os, s', fs₂, fs₃, bytesWritten, cancelled, hrun, hpasses⟩ := hstart.run_execute image hquiet
    hnever hstop hcalm rfl hapart' schedule
  refine ⟨_, bytesWritten, cancelled, s', real, ?_, hpasses.keeps.leadsTo hmade.leads,
    hpasses.report_unpacks hmap hcount _ bytesWritten cancelled⟩
  have hprepare' : (prepare options (RunState.start fs options).fs.cwd.toPath
      (RunState.start fs options).fs.executable image target).run (RunState.handler options)
      (.start fs options) = _ := hprepare
  rw [extract]
  simp only [hprepare']
  exact hrun

end TreeImage
