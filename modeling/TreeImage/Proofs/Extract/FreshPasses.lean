import TreeImage.Proofs.Extract.DirectoryModes
import TreeImage.Proofs.Extract.FileResults
import TreeImage.Proofs.Manifest.Checked

set_option autoImplicit false

/-! # The passes of a fresh run

Where nothing is below the real root and nothing stops the run, the directory pass makes every directory:
the parent of an entry comes before it, so it is there in time. Then every file has the directory that it
is to lie in. -/

namespace TreeImage

open FileSystem

variable {names real front : RealPath} {fs fs' : FileSystem} {p : Path} {e : Entry} {before : List Entry}
  {slot : Slot} {slots : List Slot} {plan : RunPlan} {options : ExtractOptions} {image : Image}
  {s s' : RunState}

/-! ## Parents that are there -/

/-- The path of the entry, below the target, leads to its home. -/
def Entry.IsReached (names real : RealPath) (fs : FileSystem) (e : Entry) : Prop :=
  fs.LeadsTo (RealPath.toPath (names ++ entryNames e.path)) (e.home real)

/-- The directory of an entry is the home of its parent, or the real root. -/
theorem leadsTo_folder (hroot : fs.LeadsTo names.toPath real) (hfront : entryNames e.path = front ++ [e.name])
    (hparent : ∀ parent, e.parent? = some parent → ∃ d : Entry, d.path = parent ∧ d.IsReached names real fs) :
    fs.LeadsTo (RealPath.toPath (names ++ front)) (e.folder real) := by
  rw [e.folder_eq real hfront]
  cases h : e.parent? with
  | none =>
    rw [entryNames_of_parentPath?_eq_none h, ← List.nil_append [utf8 (lastSegment e.path)]] at hfront
    rw [← List.append_cancel_right hfront, List.append_nil, List.append_nil]
    exact hroot
  | some parent =>
    obtain ⟨d, rfl, hd⟩ := hparent parent h
    rw [entryNames_of_parentPath? h] at hfront
    rw [← List.append_cancel_right hfront]
    exact hd

/-- An entry whose path is accepted needs the directory that its path names as its parent. -/
theorem neededParent?_of_sanitize {root : Path} (hp : sanitize root e.path = .ok p) :
    Manifest.neededParent? e = e.parent? := by
  rw [Manifest.neededParent?]
  cases h : e.parent? with
  | none => rfl
  | some parent =>
    rw [Option.filter_some, if_pos]
    rw [Bool.not_eq_true', ← Bool.not_eq_true]
    intro hempty
    obtain rfl : parent = "" := by simpa using hempty
    -- the path would be absolute
    have hpath := parentPath?_eq_some h
    have hhead : e.path.toList.head? = some '/' := by rw [hpath]; rfl
    rw [sanitize] at hp
    split at hp
    · cases hp
    · next hfault =>
      rw [pathFault?, hhead, if_pos rfl] at hfault
      split_ifs at hfault

/-! ## Making every directory -/

/-- A slot whose path was accepted, before anything is done about it. -/
structure Slot.Accepted (root : Path) (slot : Slot) : Prop where
  destination : ∃ p, slot.destination = some p ∧ sanitize root slot.entry.path = .ok p
  outcome : slot.outcome = none
  made : slot.made = false

/-- The slot after the passes over directories: the directory of a directory entry is made. -/
def Slot.entered (slot : Slot) : Slot :=
  if slot.entry.isFile then slot else { slot with outcome := some .created, made := true }

@[simp] theorem Slot.entry_entered (slot : Slot) : slot.entered.entry = slot.entry := by
  rw [entered]
  split <;> rfl

@[simp] theorem Slot.destination_entered (slot : Slot) : slot.entered.destination = slot.destination := by
  rw [entered]
  split <;> rfl

/-- In a directory that is there, a free entry with an acceptable name is made. -/
theorem DirectorySettled.eq_created {n : Name} {there : Prop} {result : Except ExtractError DirectoryState}
    {v : Option Node} (h : DirectorySettled n there none result v) (hthere : there) (hn : IsAcceptable n) :
    result = .ok .created := by
  cases h with
  | astray hnot => exact absurd hthere hnot
  | refused hnot => exact absurd hn hnot
  | created _ _ => rfl

/-- A directory entry whose parent is there and whose home is free is made. -/
theorem run_placeDirectory_fresh (options : ExtractOptions) (hroot : plan.Rooted names real s.fs) (hlinks : NoLinksBelow real s.fs)
    (hp : sanitize plan.root e.path = .ok p) (hnames : s.fs.Names p (e.folder real) e.name)
    (hn : IsAcceptable e.name) (hfree : s.fs.get? (e.home real) = none) (hcalm : s.IsCalm) :
    ∃ s', (plan.placeDirectory [] p e).run (RunState.handler options) s = (.ok (.created, true), s') ∧
      s'.IsCalm ∧ MakesDirectories (· = e.home real) s.fs s'.fs := by
  obtain ⟨result, fs', hrun, hsettled, hother⟩ := run_createDirectory_entry hroot hlinks hp e.path
  have hmade := hsettled.makesDirectories hother
  rw [hfree] at hsettled
  obtain rfl := hsettled.eq_created hnames hn
  obtain ⟨hresult, hfs, hcalm'⟩ := run_onFiles options (createDirectory plan.realRoot p e.path) s
  rw [hroot.realRoot, hrun] at hresult hfs
  rw [RunPlan.placeDirectory, blocked?_nil]
  refine ⟨((Session.onFiles (createDirectory real.toPath p e.path)).run (RunState.handler options) s).2, ?_, ?_, ?_⟩
  · show (plan.tryDirectory p e).run _ s = _
    rw [RunPlan.tryDirectory, hroot.realRoot]
    refine (Program.run_bind _ _ _ _).trans ?_
    rw [hresult]
    rfl
  · rw [hroot.realRoot] at hcalm'
    exact hcalm' hcalm
  · rw [hfs]
    exact hmade.congr (by simp)

theorem run_keep_of_run {rest rest' : List Slot} (slot : Slot)
    (h : (plan.directoryPass [] rest).run (RunState.handler options) s = (.ok ([], rest'), s')) :
    (do return (← plan.directoryPass [] rest).map fun (failures, slots) => (failures, slot :: slots) :
      Program Session (Except ExtractError (RunPlan.Failures × List Slot))).run
      (RunState.handler options) s = (.ok ([], slot :: rest'), s') := Program.run_bind_of_run h _

/-- **Every directory is made**, one after the other. -/
theorem run_directoryPass_fresh (hquiet : options.IsQuiet) (hnever : options.NeverCancels)
    (hroot : plan.Rooted names real s.fs) (hcalm : s.IsCalm) (hlinks : NoLinksBelow real s.fs)
    (haccepted : ∀ slot ∈ slots, slot.Accepted plan.root)
    (hnamed : ∀ slot ∈ slots, slot.entry.isFile = false → IsAcceptable slot.name)
    (hempty : ∀ slot ∈ slots, s.fs.get? (slot.entry.home real) = none) (hdiffer : HomesDiffer real slots)
    (hparents : Manifest.checkParents before (slots.map (·.entry)) = .ok ())
    (hbefore : ∀ d ∈ before, d.isDirectory = true → d.IsReached names real s.fs) :
    ∃ s', (plan.directoryPass [] slots).run (RunState.handler options) s = (.ok ([], slots.map Slot.entered), s') ∧
      s'.IsCalm := by
  induction slots generalizing s before with
  | nil => exact ⟨s, rfl, hcalm⟩
  | cons slot rest ih =>
    obtain ⟨⟨⟨p, hp, hsanitized⟩, hopen, -⟩, haccepted⟩ := List.forall_mem_cons.1 haccepted
    obtain ⟨hn, hnamed⟩ := List.forall_mem_cons.1 hnamed
    obtain ⟨hfree, hempty⟩ := List.forall_mem_cons.1 hempty
    obtain ⟨hothers, hdiffer⟩ := homesDiffer_cons.1 hdiffer
    obtain ⟨hparent, hparents⟩ := Manifest.checkParents_cons_eq_ok_iff.1 hparents
    rw [RunPlan.directoryPass, List.map_cons, Slot.entered]
    cases hfile : slot.entry.isFile with
    | true =>
      have hreached : ∀ d ∈ slot.entry :: before, d.isDirectory = true → d.IsReached names real s.fs := by
        intro d hd hdir
        rcases List.mem_cons.1 hd with rfl | hd
        · rw [Entry.isDirectory_eq_not_isFile, hfile] at hdir
          cases hdir
        · exact hbefore d hd hdir
      obtain ⟨s', hrun, hcalm'⟩ := ih hroot hcalm hlinks haccepted hnamed hempty hdiffer hparents hreached
      exact ⟨s', run_keep_of_run slot hrun, hcalm'⟩
    | false =>
      -- the run is not halted, and goes on to place the directory
      have hgo := run_isHalted hnever hcalm
      have hcalm₁ := isIdle_isHalted.run_calm hquiet hnever hcalm
      have hfs₁ := isTacit_isHalted.run_fs hquiet s
      generalize hlook : Session.isHalted.run (RunState.handler options) s = looked at hgo hcalm₁ hfs₁
      obtain ⟨halted, s₁⟩ := looked
      dsimp only at hgo hcalm₁ hfs₁
      subst hgo
      obtain ⟨front, hfront⟩ := slot.entry.exists_names
      have hnames : s.fs.Names p (slot.entry.folder real) slot.name := by
        rw [hroot.root] at hsanitized
        refine names_destination hroot.properNames hsanitized hfront (leadsTo_folder hroot.leads hfront ?_)
        intro parent hname
        obtain ⟨d, hd, hdir, hpath⟩ := hparent parent ((neededParent?_of_sanitize hsanitized).trans hname)
        exact ⟨d, hpath, hbefore d hd hdir⟩
      rw [← hfs₁] at hroot hlinks hnames hfree hempty hbefore
      obtain ⟨s₂, hplace, hcalm₂, hmade⟩ := run_placeDirectory_fresh options hroot hlinks hsanitized
        hnames (hn hfile) hfree hcalm₁
      have hfs₃ := (isTacit_entryDone plan slot.entry.path 0).run_fs hquiet s₂
      have hcalm₃ := (isIdle_entryDone plan slot.entry.path 0).run_calm hquiet hnever hcalm₂
      generalize hdone : (plan.entryDone slot.entry.path 0).run (RunState.handler options) s₂ = done at hfs₃ hcalm₃
      obtain ⟨⟨⟩, s₃⟩ := done
      dsimp only at hfs₃ hcalm₃
      rw [← hfs₃] at hmade
      have hreached : ∀ d ∈ slot.entry :: before, d.isDirectory = true → d.IsReached names real s₃.fs := by
        intro d hd hdir
        rcases List.mem_cons.1 hd with rfl | hd
        · rw [hroot.root] at hsanitized
          obtain ⟨-, rfl⟩ := sanitize_eq_ok hroot.properNames hsanitized
          have hthere := (hmade.made _ rfl).2
          rw [slot.entry.home_eq real] at hthere
          rw [Entry.IsReached, slot.entry.home_eq real]
          exact (hmade.keeps.names hnames).leadsTo_of_directory (hn hfile) hthere
        · exact hmade.keeps.leadsTo (hbefore d hd hdir)
      have hstillEmpty : ∀ slot' ∈ rest, s₃.fs.get? (slot'.entry.home real) = none := by
        intro slot' hslot'
        rw [hmade.outside.get? _ (hothers slot' hslot')]
        exact hempty slot' hslot'
      obtain ⟨s', hrun, hcalm'⟩ := ih (hroot.keeps hmade.keeps) hcalm₃ (hlinks.makesDirectories hmade) haccepted
        hnamed hstillEmpty hdiffer hparents hreached
      refine ⟨s', ?_, hcalm'⟩
      rw [hopen, hp]
      refine (Program.run_bind_of_run hlook _).trans ?_
      refine (Program.run_bind_of_run hplace _).trans ?_
      refine (Program.run_bind_of_run hdone _).trans ?_
      exact run_keep_of_run _ hrun

/-- What the passes over directories need to make every one of them: below the real root there is nothing,
    and the slots are those of a manifest that passed its checks, with paths that were accepted. -/
structure FreshSlots (plan : RunPlan) (names real : RealPath) (fs : FileSystem) (slots : List Slot) : Prop where
  root : plan.Rooted names real fs
  empty : ∀ q, real.Contains q → fs.get? q = none
  accepted : ∀ slot ∈ slots, slot.Accepted plan.root
  named : ∀ slot ∈ slots, slot.entry.isFile = false → IsAcceptable slot.name
  differ : HomesDiffer real slots
  parents : Manifest.checkParents [] (slots.map (·.entry)) = .ok ()

namespace FreshSlots

variable (h : FreshSlots plan names real s.fs slots)

include h

theorem noLinksBelow : NoLinksBelow real s.fs := by
  intro q target hq hget
  cases (h.empty q hq).symm.trans hget

/-- **All directories are made**, and nothing else. -/
theorem run_directories (hquiet : options.IsQuiet) (hnever : options.NeverCancels) (hcalm : s.IsCalm) :
    ∃ s', (plan.directories slots).run (RunState.handler options) s = (.ok (slots.map Slot.entered), s') ∧
      s'.IsCalm ∧ PassResult real s.fs slots (slots.map Slot.entered) s'.fs := by
  obtain ⟨s', hpass, hcalm'⟩ := run_directoryPass_fresh hquiet hnever h.root hcalm h.noLinksBelow h.accepted
    h.named (fun slot _ => h.empty _ (slot.entry.contains_home real)) h.differ h.parents nofun
  have hrun : (plan.directories slots).run (RunState.handler options) s = (.ok (slots.map Slot.entered), s') := by
    rw [RunPlan.directories]
    refine (Program.run_bind_of_run hpass _).trans ?_
    simp only [blockFiles_nil]
    rfl
  refine ⟨s', hrun, hcalm', TreeImage.run_directories hquiet h.root h.noLinksBelow ?_ ?_ h.differ hrun⟩
  · intro slot hslot p hp
    obtain ⟨p', hp', hsanitized⟩ := (h.accepted slot hslot).destination
    cases hp.symm.trans hp'
    exact hsanitized
  · exact fun slot hslot => (h.accepted slot hslot).made

/-- After it the directory of every entry is there. -/
theorem within (hpass : PassResult real s.fs slots (slots.map Slot.entered) fs') :
    ∀ slot ∈ slots, slot.Within fs' real := by
  have hroot := hpass.makes.keeps.leadsTo h.root.leads
  have hreached : ∀ slot ∈ slots, slot.entry.isDirectory = true → slot.entry.IsReached names real fs' := by
    intro slot hslot hdir
    rw [Entry.isDirectory_eq_not_isFile, Bool.not_eq_true'] at hdir
    obtain ⟨p, hp, hleads⟩ := hpass.reaches _ (List.mem_map_of_mem hslot) (by rw [Slot.entered, hdir]; rfl)
    rw [Slot.destination_entered] at hp
    rw [Slot.entry_entered] at hleads
    obtain ⟨p', hp', hsanitized⟩ := (h.accepted slot hslot).destination
    cases hp.symm.trans hp'
    rw [h.root.root] at hsanitized
    obtain ⟨-, rfl⟩ := sanitize_eq_ok h.root.properNames hsanitized
    exact hleads
  intro slot hslot
  obtain ⟨p, hp, hsanitized⟩ := (h.accepted slot hslot).destination
  rw [h.root.root] at hsanitized
  obtain ⟨front, hfront⟩ := slot.entry.exists_names
  refine ⟨p, hp, names_destination h.root.properNames hsanitized hfront (leadsTo_folder hroot hfront ?_)⟩
  intro parent hname
  obtain ⟨earlier, later, rfl⟩ := List.append_of_mem hslot
  have hparents := h.parents
  rw [List.map_append, List.map_cons] at hparents
  obtain ⟨d, hd, hdir, hpath⟩ := Manifest.checkParents_eq_ok_iff.1 hparents _ _ _ rfl parent
    ((neededParent?_of_sanitize hsanitized).trans hname)
  rw [List.append_nil, List.mem_reverse] at hd
  obtain ⟨slot', hslot', rfl⟩ := List.mem_map.1 hd
  exact ⟨_, hpath, hreached slot' (List.mem_append_left _ hslot') hdir⟩

end FreshSlots

/-! ## Writing every file -/

/-- A slot whose directory is there is aimed at the home of its entry. -/
theorem Slot.Within.aimed (h : slot.Within fs real) : slot.Aimed fs real := by
  obtain ⟨p, hp, r, hproper, rfl, hleads⟩ := h
  exact ⟨r, hproper, hp, fun d hd => hd.unique hleads⟩

theorem map_getElem?_range {α : Type} (as : List α) : (List.range as.length).map (as[·]?) = as.map some := by
  refine List.ext_getElem? fun i => ?_
  rw [List.getElem?_map, List.getElem?_map]
  by_cases hi : i < as.length
  · rw [List.getElem?_range hi, Option.map_some, List.getElem?_eq_getElem hi, Option.map_some]
  · have hlength := Nat.not_lt.1 hi
    rw [List.getElem?_eq_none (by simpa using hlength), List.getElem?_eq_none hlength]
    rfl

/-- **Files whose directories are there are all dealt with**, if nothing stops the run: by one worker, or by
    several of which no two work at one place. -/
theorem files_undisturbed (image : Image) (hquiet : options.IsQuiet) (hnever : options.NeverCancels)
    (hstop : options.stopOnFirstError = false) (hcalm : s.IsCalm) (hplan : plan.options = options)
    (hroot : plan.Rooted names real s.fs) {pending : List Slot} (hwithin : ∀ slot ∈ pending, slot.Within s.fs real)
    (hdiffer : HomesDiffer real pending) (hapart : 1 < options.workers → WorkApart real pending)
    (schedule : List Nat) :
    ∃ (os : List Outcome) (s' : RunState), plan.files schedule image pending s = ((List.range pending.length).map (os[·]?), s') ∧
      os.length = pending.length ∧ s'.IsCalm ∧ SameFrame s.fs s'.fs ∧
      AgreeOutside (IsHome real pending) s.fs s'.fs ∧
      ∀ (i : Nat) (slot : Slot) (o : Outcome), pending[i]? = some slot → os[i]? = some o →
        slot.Settled options image real s.fs s'.fs (IsHome real pending) o := by
  cases hfiles : plan.files schedule image pending s with
  | mk results s' =>
    by_cases hmany : 1 < options.workers
    · obtain ⟨hcalm', hframe, hother, os, rfl, hlength, hsettled⟩ := files_calm hquiet hnever hstop hcalm hplan
        hroot.properReal hroot.realRoot hwithin (hapart hmany) schedule hfiles
      refine ⟨os, s', ?_, hlength, hcalm', hframe, hother, hsettled⟩
      rw [← hlength, map_getElem?_range]
    · obtain ⟨os, hinOrder, rfl, hlength⟩ := files_in_order hquiet hplan hroot.properReal hroot.realRoot
        (fun slot hslot => (hwithin slot hslot).aimed) hdiffer (Nat.not_lt.1 hmany) schedule hfiles
      refine ⟨os, s', rfl, hlength hnever hstop hwithin hcalm, hinOrder.calm hnever hstop hwithin hcalm,
        hinOrder.frame, ⟨hinOrder.frame.cwd, hinOrder.frame.executable, ?_⟩, ?_⟩
      · intro q hq
        exact hinOrder.other q fun i slot _ hslot heq => hq ⟨slot, List.mem_of_getElem? hslot, heq⟩
      · intro i slot o hslot ho
        obtain ⟨-, hsettled⟩ | ⟨hnot, -⟩ := hinOrder.done i slot o hslot ho
        · exact hsettled
        · exact absurd (hwithin slot (List.mem_of_getElem? hslot)) hnot

/-- There are more names for temporary files than any list of places has. -/
theorem exists_stagingPlace_not_mem (d : RealPath) (n : Name) (taken : List RealPath) :
    ∃ m ≤ taken.length, stagingPlace d n m ∉ taken := by
  by_contra hall
  have hinjective : Function.Injective (stagingPlace d n) := fun i j h =>
    temporaryName_injective n (List.singleton_inj.1 (List.append_cancel_left h))
  have hsub : (List.range (taken.length + 1)).map (stagingPlace d n) ⊆ taken := by
    intro q hq
    obtain ⟨m, hm, rfl⟩ := List.mem_map.1 hq
    by_contra hfree
    exact hall ⟨m, Nat.le_of_lt_succ (List.mem_range.1 hm), hfree⟩
  have hlength := ((List.Nodup.map hinjective List.nodup_range).subperm hsub).length_le
  rw [List.length_map, List.length_range] at hlength
  omega

end TreeImage
