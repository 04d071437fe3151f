import TreeImage.Proofs.Extract.DirectoryResults

set_option autoImplicit false

/-! # Modes of directories

At the end of a run the directories that it made get their recorded modes. Their paths still lead to them,
so nothing can fail here, and nothing else changes. -/

namespace TreeImage

open FileSystem

variable {real : RealPath} {fs fs' : FileSystem} {slot : Slot} {slots slots' : List Slot}
  {options : ExtractOptions} {s s' : RunState}

/-- If a directory was made for the slot, its destination leads to the home of its entry. -/
def Slot.Reaches (real : RealPath) (fs : FileSystem) (slot : Slot) : Prop :=
  slot.made = true → ∃ p, slot.destination = some p ∧ fs.LeadsTo p (slot.entry.home real)

theorem Slot.Reaches.keeps (h : slot.Reaches real fs) (hkeeps : Keeps fs fs') : slot.Reaches real fs' := by
  intro hmade
  obtain ⟨p, hp, hleads⟩ := h hmade
  exact ⟨p, hp, hkeeps.leadsTo hleads⟩

/-- Directories with a recorded mode that were made for some of the slots. -/
def ModeSet (real : RealPath) (slots : List Slot) (mode : UInt32) (q : RealPath) : Prop :=
  ∃ slot ∈ slots, slot.made = true ∧ slot.entry.mode = some mode ∧ q = slot.entry.home real

/-- The directories have their modes, and nothing else is different. -/
structure SetsModes (real : RealPath) (slots : List Slot) (fs fs' : FileSystem) : Prop where
  keeps : Keeps fs fs'
  outside : AgreeOutside (fun q => ∃ mode, ModeSet real slots mode q) fs fs'
  mode : ∀ mode q, ModeSet real slots mode q → fs'.get? q = some (.directory (mode &&& modeMask))

theorem SetsModes.refl (fs : FileSystem) (hnone : ∀ mode q, ¬ModeSet real slots mode q) :
    SetsModes real slots fs fs :=
  ⟨.refl fs, .refl _ fs, fun mode q h => absurd h (hnone mode q)⟩

theorem modeSet_cons {mode : UInt32} {q : RealPath} : ModeSet real (slot :: slots) mode q ↔
    (slot.made = true ∧ slot.entry.mode = some mode ∧ q = slot.entry.home real) ∨
      ModeSet real slots mode q := by
  simp [ModeSet]

/-- Setting the mode of one directory. -/
theorem run_applyMode {p : Path} {d : RealPath} (h : fs.LeadsTo p d) (mode : UInt32) :
    ∃ fs', (applyMode p mode).run answer fs = (.ok (), fs') ∧ Keeps fs fs' ∧
      AgreeOutside (· = d) fs fs' ∧ fs'.get? d = some (.directory (mode &&& modeMask)) := by
  obtain ⟨m, hfind⟩ := h.find
  have hset : fs.answer (.setMode p mode) = (.ok (), fs.put d (.directory (mode &&& modeMask))) := by
    rw [answer, FileSystem.setMode, hfind]
    rfl
  have hget : fs.get? d = some (.directory m) := (find_eq_ok_iff.1 hfind).2
  exact ⟨_, run_ask _ hset _, keeps_put_withMode hget (mode &&& modeMask), agreeOutside_put fs d _,
    get?_put_self ..⟩

/-- A directory that was made gets its mode where its destination leads. -/
theorem run_finishDirectory_of_made (options : ExtractOptions) {p : Path} {d : RealPath} {mode : UInt32}
    (hmade : slot.made = true) (hmode : slot.entry.mode = some mode) (hp : slot.destination = some p)
    (hleads : s.fs.LeadsTo p d) :
    ∃ s', (RunPlan.finishDirectory slot).run (RunState.handler options) s = (slot, s') ∧ Keeps s.fs s'.fs ∧
      AgreeOutside (· = d) s.fs s'.fs ∧ s'.fs.get? d = some (.directory (mode &&& modeMask)) ∧ (s.IsCalm → s'.IsCalm) := by
  obtain ⟨fs', hrun, hset⟩ := run_applyMode hleads mode
  obtain ⟨hresult, hfs, hcalm⟩ := run_onFiles options (applyMode p mode) s
  rw [hrun] at hresult hfs
  obtain rfl : _ = fs' := hfs
  refine ⟨((Session.onFiles (applyMode p mode)).run (RunState.handler options) s).2, ?_, hset.1, hset.2.1, hset.2.2, hcalm⟩
  rw [RunPlan.finishDirectory, hmade, hmode, hp]
  refine (Program.run_bind _ _ _ _).trans ?_
  rw [hresult]
  rfl

/-- Where no directory was made, or no mode is recorded, there is nothing to finish. -/
theorem finishDirectory_eq_done (h : ¬∃ mode, slot.made = true ∧ slot.entry.mode = some mode) :
    RunPlan.finishDirectory slot = .done slot := by
  rw [RunPlan.finishDirectory]
  cases hmade : slot.made with
  | false => rfl
  | true =>
    cases hrecorded : slot.entry.mode with
    | none => rfl
    | some mode => exact absurd ⟨mode, hmade, hrecorded⟩ h

theorem run_finishDirectory (options : ExtractOptions) (h : slot.Reaches real s.fs) :
    ∃ s', (RunPlan.finishDirectory slot).run (RunState.handler options) s = (slot, s') ∧
      SetsModes real [slot] s.fs s'.fs ∧ (s.IsCalm → s'.IsCalm) := by
  by_cases hmode : ∃ mode, slot.made = true ∧ slot.entry.mode = some mode
  · obtain ⟨mode, hmade, hmode⟩ := hmode
    obtain ⟨p, hp, hleads⟩ := h hmade
    obtain ⟨s', hrun, hkeeps, hother, hset, hcalm⟩ := run_finishDirectory_of_made options hmade hmode hp hleads
    have hone : ∀ m q, ModeSet real [slot] m q ↔ m = mode ∧ q = slot.entry.home real := by
      intro m q
      rw [modeSet_cons]
      simp [ModeSet, hmade, hmode, eq_comm (a := m)]
    refine ⟨s', hrun, ⟨hkeeps, hother.imp fun q hq => ⟨mode, (hone mode q).2 ⟨rfl, hq⟩⟩, ?_⟩, hcalm⟩
    intro m q hq
    obtain ⟨rfl, rfl⟩ := (hone m q).1 hq
    exact hset
  · have hnone : ∀ mode q, ¬ModeSet real [slot] mode q := by
      rintro mode q ⟨slot', hslot', hmade, hrecorded, -⟩
      obtain rfl := List.mem_singleton.1 hslot'
      exact hmode ⟨mode, hmade, hrecorded⟩
    rw [finishDirectory_eq_done hmode]
    exact ⟨s, rfl, .refl s.fs hnone, id⟩

/-- **Directories are finished without failure.** -/
theorem run_finishDirectories (options : ExtractOptions) (hdiffer : HomesDiffer real slots)
    (hreaches : ∀ slot ∈ slots, slot.Reaches real s.fs) :
    ∃ s', (RunPlan.finishDirectories slots).run (RunState.handler options) s = (slots, s') ∧
      SetsModes real slots s.fs s'.fs ∧ (s.IsCalm → s'.IsCalm) := by
  induction slots with
  | nil => exact ⟨s, rfl, .refl s.fs (by simp [ModeSet]), id⟩
  | cons slot rest ih =>
    obtain ⟨hothers, hdiffer'⟩ := homesDiffer_cons.1 hdiffer
    obtain ⟨hslot, hrest⟩ := List.forall_mem_cons.1 hreaches
    obtain ⟨t, hrunRest, hsets, hcalm⟩ := ih hdiffer' hrest
    obtain ⟨u, hrun, hset, hcalm'⟩ := run_finishDirectory options (hslot.keeps hsets.keeps)
    refine ⟨u, ?_, ⟨hsets.keeps.trans hset.keeps, ?_, ?_⟩, fun h => hcalm' (hcalm h)⟩
    · rw [RunPlan.finishDirectories]
      refine (Program.run_bind _ _ _ _).trans ?_
      rw [hrunRest]
      refine (Program.run_bind _ _ _ _).trans ?_
      rw [hrun]
      rfl
    · refine (hsets.outside.imp ?_).trans (hset.outside.imp ?_)
      · rintro q ⟨mode, hq⟩
        exact ⟨mode, modeSet_cons.2 (.inr hq)⟩
      · rintro q ⟨mode, hq⟩
        refine ⟨mode, modeSet_cons.2 (.inl ?_)⟩
        simpa [ModeSet] using hq
    · intro mode q hq
      rcases modeSet_cons.1 hq with ⟨hmade, hmode, rfl⟩ | hin
      · exact hset.mode mode _ ⟨slot, List.mem_singleton_self slot, hmade, hmode, rfl⟩
      · -- the directories of the rest have other homes
        rw [hset.outside.get? q, hsets.mode mode q hin]
        rintro ⟨mode', slot', hslot', -, -, rfl⟩
        obtain rfl := List.mem_singleton.1 hslot'
        obtain ⟨other, hother, -, -, heq⟩ := hin
        exact hothers other hother heq.symm

/-- Directories that were just made can be reached. -/
theorem PassResult.reaches (h : PassResult real fs slots slots' fs') :
    ∀ slot ∈ slots', slot.Reaches real fs' := by
  intro slot hslot hmade
  obtain ⟨⟨p, hp, hnames⟩, hn⟩ := h.within slot hslot hmade
  have hdir := (h.makes.made _ ⟨slot, hslot, hmade, rfl⟩).2
  have hhome : slot.entry.folder real ++ [slot.name] = slot.entry.home real := (slot.entry.home_eq real).symm
  rw [← hhome] at hdir
  have hleads := hnames.leadsTo_of_directory hn hdir
  rw [hhome] at hleads
  exact ⟨p, hp, hleads⟩

/-- The end of a run sets the modes, and reports the slots as they are. -/
theorem run_conclude (options : ExtractOptions) (plan : RunPlan) (bytesWritten : Nat) (hdiffer : HomesDiffer real slots)
    (hreaches : ∀ slot ∈ slots, slot.Reaches real s.fs) :
    ∃ cancelled s', (plan.conclude slots bytesWritten).run (RunState.handler options) s =
        (.new plan.root (slots.map (·.report)) bytesWritten cancelled, s') ∧
      SetsModes real slots s.fs s'.fs := by
  obtain ⟨t, hfinish, hsets, -⟩ := run_finishDirectories options hdiffer hreaches
  refine ⟨(t.lookAtToken options.cancelToken).1, (t.lookAtToken options.cancelToken).2, ?_, ?_⟩
  · rw [RunPlan.conclude]
    refine (Program.run_bind _ _ _ _).trans ?_
    rw [hfinish]
    rfl
  · rw [(t.fs_lookAtToken options.cancelToken).1]
    exact hsets

end TreeImage
