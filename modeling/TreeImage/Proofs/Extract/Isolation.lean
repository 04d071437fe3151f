import TreeImage.Proofs.Extract.Calm
import TreeImage.Proofs.Extract.Stopping
import TreeImage.Proofs.Program.Lockstep

set_option autoImplicit false

/-! # Unsafe entries are isolated

A lenient run fails an entry with an unsafe path before its passes, and goes on as if the entry were not there: what is
below it has an unsafe path too, so its failure blocks nothing else. So the run goes in lockstep with one from which a
filter leaves out the unsafe entries. Only what the listener is told differs, since progress counts all entries. -/

namespace TreeImage

variable {options : ExtractOptions} {plan plan' : RunPlan} {image : Image} {schedule schedule' : List Nat} {root : Path}
  {path front : String} {failures failures' : RunPlan.Failures} {e : Entry} {slot : Slot}
  {slots slots' : List Slot} {s t : RunState}

/-! ## Accepted paths -/

/-- Whether an entry path is accepted below `root`. -/
def acceptsPath (root : Path) (path : String) : Bool := (sanitize root path).isOk

theorem acceptsPath_iff : acceptsPath root path = true ↔ ∃ p, sanitize root path = .ok p := by
  rw [acceptsPath]
  cases sanitize root path with
  | ok p => exact ⟨fun _ => ⟨p, rfl⟩, fun _ => rfl⟩
  | error err => exact ⟨nofun, nofun⟩

/-- Whether a path is accepted does not depend on the root. -/
theorem acceptsPath_eq (root root' : Path) (path : String) : acceptsPath root path = acceptsPath root' path := by
  have hother : ∀ {root root'}, acceptsPath root path = true → acceptsPath root' path = true := by
    intro root root' haccepted
    obtain ⟨p, hp⟩ := acceptsPath_iff.1 haccepted
    obtain ⟨hpath, hsegments⟩ := no_fault_of_sanitize hp
    exact acceptsPath_iff.2 ⟨_, sanitize_of_no_fault root' hpath hsegments⟩
  exact Bool.eq_iff_iff.2 ⟨hother, hother⟩

theorem acceptsPath_above (h : acceptsPath root path = true) (habove : Manifest.IsOnTheWay front path) :
    acceptsPath root front = true := by
  obtain ⟨p, hp⟩ := acceptsPath_iff.1 h
  exact acceptsPath_iff.2 (exists_sanitize_above hp habove)

theorem acceptsPath_parent {parent : String} (h : acceptsPath root path = true)
    (hparent : parentPath? path = some parent) : acceptsPath root parent = true := by
  obtain ⟨p, hp⟩ := acceptsPath_iff.1 h
  exact acceptsPath_above h (isOnTheWay_of_parentPath? hp hparent)

/-- The options, with the filter that lets through the entries whose paths are accepted. -/
def ExtractOptions.acceptedOnly (options : ExtractOptions) (root : Path) : ExtractOptions :=
  { options with filter := some fun e => acceptsPath root e.path }

/-- Nothing but accepted entries is on the way to them. -/
theorem Image.select_acceptedOnly {bytes : Bytes} (h : Image.parse bytes = .ok image) :
    image.manifest.select (options.acceptedOnly root).filter =
      image.manifest.entries.filter fun e => acceptsPath root e.path := by
  obtain ⟨keep, hkeep⟩ := image.manifest.select_eq_filter (options.acceptedOnly root).filter
  rw [hkeep]
  refine List.filter_congr fun e he => Bool.eq_iff_iff.2 ?_
  have hselects : e ∈ image.manifest.select (options.acceptedOnly root).filter ↔
      image.manifest.Selects (options.acceptedOnly root) e := Image.mem_select_iff h
  rw [hkeep, List.mem_filter, Manifest.Selects, and_congr_right_iff] at hselects
  rw [hselects he]
  constructor
  · rintro (haccepted | ⟨e', -, haccepted, habove⟩)
    · exact haccepted
    · exact acceptsPath_above haccepted habove
  · exact .inl

/-! ## States -/

/-- The states differ at most in what they have on record. -/
def RunState.SameButTold (s t : RunState) : Prop := ∃ trace, t = { s with trace := trace }

theorem RunState.respects_handler : (RunState.handler options).Respects SameButTold := by
  rintro c s _ ⟨trace, rfl⟩
  cases c with
  | isCancelled =>
    show (s.lookAtToken options.cancelToken).1 = (RunState.lookAtToken { s with trace := trace } options.cancelToken).1 ∧
      SameButTold (s.lookAtToken options.cancelToken).2
        (RunState.lookAtToken { s with trace := trace } options.cancelToken).2
    cases options.cancelToken <;> exact ⟨rfl, _, rfl⟩
  | announce p =>
    show _ ∧ SameButTold (s.tell p options.onProgress) (RunState.tell { s with trace := trace } p options.onProgress)
    cases options.onProgress <;> exact ⟨rfl, _, rfl⟩
  | _ => exact ⟨rfl, _, rfl⟩

namespace RunState.SameButTold

theorem fs (h : s.SameButTold t) : t.fs = s.fs := by
  obtain ⟨trace, rfl⟩ := h
  rfl

theorem bytesWritten (h : s.SameButTold t) : t.bytesWritten = s.bytesWritten := by
  obtain ⟨trace, rfl⟩ := h
  rfl

theorem fatal (h : s.SameButTold t) : t.fatal = s.fatal := by
  obtain ⟨trace, rfl⟩ := h
  rfl

/-- A listener that leaves the file system alone and does not cancel takes any progress alike. -/
theorem tell (hquiet : options.IsQuiet) (hnever : options.NeverCancels) (h : s.SameButTold t)
    (p p' : Progress) : (s.tell p options.onProgress).SameButTold (t.tell p' options.onProgress) := by
  obtain ⟨trace, rfl⟩ := h
  cases hlistener : options.onProgress with
  | none => exact ⟨trace, rfl⟩
  | some listener =>
    refine ⟨trace ++ [.told p'], ?_⟩
    simp only [RunState.tell, hquiet listener hlistener, hnever.listener listener hlistener]

end RunState.SameButTold

theorem announce_inStep (hquiet : options.IsQuiet) (hnever : options.NeverCancels) (p p' : Progress) :
    (Session.announce p).InStep (RunState.handler options) RunState.SameButTold (· = ·) (Session.announce p') :=
  .call (fun _ _ hst => hst.tell hquiet hnever p p') fun _ _ _ => .done rfl

/-! ## Plans -/

/-- Handlers do not use the filter. -/
theorem RunState.handler_filter (options : ExtractOptions) (filter : Option (Entry → Bool)) :
    RunState.handler { options with filter := filter } = RunState.handler options := by
  funext c
  cases c <;> rfl

/-- The plans differ at most in their filters and in what progress is measured against. -/
def RunPlan.Resembles (plan plan' : RunPlan) : Prop :=
  ∃ filter rejected entriesTotal bytesTotal, plan' =
    { plan with options := { plan.options with filter := filter }, rejected, entriesTotal, bytesTotal }

namespace RunPlan.Resembles

theorem handler (h : plan.Resembles plan') : RunState.handler plan'.options = RunState.handler plan.options := by
  obtain ⟨filter, rejected, entriesTotal, bytesTotal, rfl⟩ := h
  exact RunState.handler_filter _ _

theorem workers (h : plan.Resembles plan') : plan'.options.workers = plan.options.workers := by
  obtain ⟨filter, rejected, entriesTotal, bytesTotal, rfl⟩ := h
  rfl

theorem placeDirectory (h : plan.Resembles plan') (failures : Failures) (p : Path) (e : Entry) :
    plan'.placeDirectory failures p e = plan.placeDirectory failures p e := by
  obtain ⟨filter, rejected, entriesTotal, bytesTotal, rfl⟩ := h
  rfl

theorem writeFile (h : plan.Resembles plan') (p : Path) (e : Entry) (content : Bytes) :
    TreeImage.writeFile plan'.options plan'.realRoot p e content =
      TreeImage.writeFile plan.options plan.realRoot p e content := by
  obtain ⟨filter, rejected, entriesTotal, bytesTotal, rfl⟩ := h
  rfl

theorem fileFailed (h : plan.Resembles plan') (err : ExtractError) : plan'.fileFailed err = plan.fileFailed err := by
  obtain ⟨filter, rejected, entriesTotal, bytesTotal, rfl⟩ := h
  rfl

end RunPlan.Resembles

/-! ## Failed directories -/

/-- The failures are those of the same directories among the ones with accepted paths. -/
def RunPlan.Failures.AgreeBelow (root : Path) (failures failures' : RunPlan.Failures) : Prop :=
  ∀ path, acceptsPath root path = true → failures'.lookup path = failures.lookup path

namespace RunPlan.Failures.AgreeBelow

theorem note (h : AgreeBelow root failures failures') (e : Entry) (o : Outcome) :
    AgreeBelow root (failures.note e o) (failures'.note e o) := by
  intro path hpath
  cases o with
  | failed kind message =>
    show List.lookup path ((e.path, kind) :: failures') = List.lookup path ((e.path, kind) :: failures)
    rw [List.lookup_cons, List.lookup_cons, h path hpath]
  | _ => exact h path hpath

theorem note_refused (h : AgreeBelow root failures failures') (he : acceptsPath root e.path = false) (o : Outcome) :
    AgreeBelow root (failures.note e o) failures' := by
  intro path hpath
  cases o with
  | failed kind message =>
    have hne : (path == e.path) = false := by
      rw [beq_eq_false_iff_ne]
      rintro rfl
      rw [he] at hpath
      cases hpath
    show List.lookup path failures' = List.lookup path ((e.path, kind) :: failures)
    rw [List.lookup_cons, hne, h path hpath]
  | _ => exact h path hpath

/-- The parent of an accepted path is accepted, so it failed in both. -/
theorem blocked? (h : AgreeBelow root failures failures') (he : acceptsPath root e.path = true) :
    RunPlan.blocked? failures' e = RunPlan.blocked? failures e := by
  rw [RunPlan.blocked?, RunPlan.blocked?]
  cases hparent : e.parent? with
  | none => rfl
  | some parent => simp only [h parent (acceptsPath_parent he hparent)]

end RunPlan.Failures.AgreeBelow

/-! ## Slots -/

/-- The slots of two runs, the second one without the entries whose paths are refused. In the first these failed for their
    paths, and have nowhere to go. -/
inductive Slot.Admits (root : Path) : List Slot → List Slot → Prop
  | nil : Admits root [] []
  | accepted {slot : Slot} {rest rest' : List Slot} (haccepted : acceptsPath root slot.entry.path = true)
      (hrest : Admits root rest rest') : Admits root (slot :: rest) (slot :: rest')
  | refused {slot : Slot} {rest rest' : List Slot} {message : String}
      (hrefused : acceptsPath root slot.entry.path = false) (hnowhere : slot.destination = none)
      (hfailed : slot.outcome = some (.failed .path message)) (hrest : Admits root rest rest') :
      Admits root (slot :: rest) rest'

namespace Slot.Admits

theorem filter_isPending (h : Admits root slots slots') : slots'.filter (·.isPending) = slots.filter (·.isPending) := by
  induction h with
  | nil => rfl
  | @accepted slot _ _ _ _ ih => rw [List.filter_cons, List.filter_cons, ih]
  | @refused slot _ _ _ _ _ hfailed _ ih =>
    have hdecided : slot.isPending = false := by simp [Slot.isPending, hfailed]
    rw [List.filter_cons, hdecided, ih]
    rfl

theorem assignResults (h : Admits root slots slots') (results : List (Option Outcome)) :
    Admits root (RunPlan.assignResults slots results) (RunPlan.assignResults slots' results) := by
  induction h generalizing results with
  | nil => exact .nil
  | @accepted slot _ _ haccepted _ ih =>
    rw [RunPlan.assignResults, RunPlan.assignResults]
    split
    · exact .accepted haccepted (ih _)
    · exact .accepted haccepted (ih _)
  | @refused slot _ _ _ hrefused hnowhere hfailed _ ih =>
    have hdecided : slot.isPending = false := by simp [Slot.isPending, hfailed]
    rw [RunPlan.assignResults, hdecided]
    exact .refused hrefused hnowhere hfailed (ih _)

theorem map_report (h : Admits root slots slots') : slots'.map (·.report) =
    (slots.map (·.report)).filter fun r => acceptsPath root r.path := by
  induction h with
  | nil => rfl
  | accepted haccepted _ ih =>
    rw [List.map_cons, List.map_cons, List.filter_cons_of_pos (p := fun r : EntryReport => acceptsPath root r.path)
      haccepted, ih]
  | refused hrefused _ _ _ ih =>
    rw [List.map_cons, List.filter_cons_of_neg (p := fun r : EntryReport => acceptsPath root r.path)
      (Bool.eq_false_iff.1 hrefused), ih]

theorem failed_of_refused (h : Admits root slots slots') : ∀ slot ∈ slots, acceptsPath root slot.entry.path = false →
    ∃ message, slot.outcome = some (.failed .path message) := by
  induction h with
  | nil => exact nofun
  | accepted haccepted _ ih =>
    refine List.forall_mem_cons.2 ⟨?_, ih⟩
    intro hrefused
    rw [hrefused] at haccepted
    cases haccepted
  | refused _ _ hfailed _ ih => exact List.forall_mem_cons.2 ⟨fun _ => ⟨_, hfailed⟩, ih⟩

end Slot.Admits

/-- A lenient run has a slot for every entry, and one that refused entries are left out of has the same for the others. -/
theorem exists_slotsFor_lenient (root root' : Path) (entries : List Entry) :
    ∃ slots slots', slotsFor root' false entries = .ok slots ∧
      slotsFor root' false (entries.filter fun e => acceptsPath root e.path) = .ok slots' ∧
      Slot.Admits root slots slots' := by
  induction entries with
  | nil => exact ⟨[], [], rfl, rfl, .nil⟩
  | cons e entries ih =>
    obtain ⟨rest, rest', hrest, hrest', hadmits⟩ := ih
    rw [slotsFor, hrest]
    have hsame := acceptsPath_eq root root' e.path
    cases hp : sanitize root' e.path with
    | ok p =>
      have haccepted : acceptsPath root e.path = true := hsame.trans (acceptsPath_iff.2 ⟨p, hp⟩)
      rw [List.filter_cons_of_pos (p := fun e : Entry => acceptsPath root e.path) haccepted, slotsFor, hp, hrest']
      exact ⟨_, _, rfl, rfl, .accepted haccepted hadmits⟩
    | error err =>
      have hrefused : acceptsPath root e.path = false := by rw [hsame, acceptsPath, hp]; rfl
      obtain ⟨fault, rfl⟩ := sanitize_eq_error hp
      rw [List.filter_cons_of_neg (p := fun e : Entry => acceptsPath root e.path) (Bool.eq_false_iff.1 hrefused)]
      exact ⟨_, _, rfl, hrest', .refused hrefused rfl rfl hadmits⟩

/-! ## Passes in lockstep -/

section Passes

variable (hquiet : options.IsQuiet) (hnever : options.NeverCancels)

/-- The programs are in lockstep as parts of runs with these options. -/
abbrev Program.Alike (options : ExtractOptions) {α β : Type} (post : α → β → Prop) (p : Program Session α)
    (q : Program Session β) : Prop :=
  p.InStep (RunState.handler options) RunState.SameButTold post q

/-- Both results are the same error, or `post` relates them. -/
inductive SameEnd {α β : Type} (post : α → β → Prop) : Except ExtractError α → Except ExtractError β → Prop
  | ok {a : α} {b : β} (hpost : post a b) : SameEnd post (.ok a) (.ok b)
  | error (err : ExtractError) : SameEnd post (.error err) (.error err)

theorem SameEnd.map {α β γ δ : Type} {post : α → β → Prop} {post' : γ → δ → Prop} {x : Except ExtractError α}
    {y : Except ExtractError β} (h : SameEnd post x y) {f : α → γ} {g : β → δ}
    (hmap : ∀ a b, post a b → post' (f a) (g b)) : SameEnd post' (x.map f) (y.map g) := by
  cases h with
  | ok hpost => exact .ok (hmap _ _ hpost)
  | error err => exact .error err

theorem SameEnd.map_left {α β γ : Type} {post : α → β → Prop} {post' : γ → β → Prop} {x : Except ExtractError α}
    {y : Except ExtractError β} (h : SameEnd post x y) {f : α → γ} (hmap : ∀ a b, post a b → post' (f a) b) :
    SameEnd post' (x.map f) y := by
  cases h with
  | ok hpost => exact .ok (hmap _ _ hpost)
  | error err => exact .error err

theorem alike_self {α : Type} (p : Program Session α) : p.Alike options (· = ·) p :=
  Program.inStep_self RunState.respects_handler p

/-- What the directory pass of two runs left: the same failures below the root, and the same slots but for those of
    refused entries. -/
def PassedAlike (root : Path) (x y : RunPlan.Failures × List Slot) : Prop :=
  x.1.AgreeBelow root y.1 ∧ Slot.Admits root x.2 y.2

/-- The pass makes no call for a slot whose path was refused. -/
theorem keep_refused {q : Program Session (Except ExtractError (RunPlan.Failures × List Slot))} {message : String}
    (hrefused : acceptsPath root slot.entry.path = false) (hnowhere : slot.destination = none)
    (hfailed : slot.outcome = some (.failed .path message))
    (hrest : (plan.directoryPass failures slots).Alike options (SameEnd (PassedAlike root)) q) :
    Program.Alike options (SameEnd (PassedAlike root))
      (do return (← plan.directoryPass failures slots).map fun (failures, slots) => (failures, slot :: slots)) q :=
  hrest.map_left fun _ _ hend =>
    hend.map_left fun _ _ hpassed => ⟨hpassed.1, .refused hrefused hnowhere hfailed hpassed.2⟩

theorem keep_accepted (haccepted : acceptsPath root slot.entry.path = true)
    (hrest : (plan.directoryPass failures slots).Alike options (SameEnd (PassedAlike root))
      (plan'.directoryPass failures' slots')) :
    Program.Alike options (SameEnd (PassedAlike root))
      (do return (← plan.directoryPass failures slots).map fun (failures, slots) => (failures, slot :: slots))
      (do return (← plan'.directoryPass failures' slots').map fun (failures, slots) => (failures, slot :: slots)) :=
  hrest.bind fun _ _ hend => .done (hend.map fun _ _ hpassed => ⟨hpassed.1, .accepted haccepted hpassed.2⟩)

theorem placeDirectory_alike (hplan : plan.Resembles plan') (hfailures : failures.AgreeBelow root failures')
    (he : acceptsPath root e.path = true) (p : Path) :
    (plan.placeDirectory failures p e).Alike options (· = ·) (plan'.placeDirectory failures' p e) := by
  have hsame : plan'.placeDirectory failures' p e = plan.placeDirectory failures p e := by
    rw [hplan.placeDirectory, RunPlan.placeDirectory, RunPlan.placeDirectory, hfailures.blocked? he]
  rw [hsame]
  exact alike_self _

include hquiet hnever

theorem entryDone_alike (plan plan' : RunPlan) (path : String) (written : Nat) :
    (plan.entryDone path written).Alike options (· = ·) (plan'.entryDone path written) := by
  refine (alike_self _).bind ?_
  rintro done _ rfl
  refine (alike_self _).bind ?_
  rintro bytes _ rfl
  exact announce_inStep hquiet hnever _ _

theorem directoryPass_alike (hplan : plan.Resembles plan') (hfailures : failures.AgreeBelow root failures')
    (hslots : Slot.Admits root slots slots') :
    (plan.directoryPass failures slots).Alike options (SameEnd (PassedAlike root))
      (plan'.directoryPass failures' slots') := by
  induction hslots generalizing failures failures' with
  | nil => exact .done (.ok ⟨hfailures, .nil⟩)
  | @refused slot rest rest' message hrefused hnowhere hfailed hrest ih =>
    rw [RunPlan.directoryPass]
    show Program.Alike options _ (if slot.entry.isFile then _ else _) _
    split
    · exact keep_refused hrefused hnowhere hfailed (ih hfailures)
    · rw [hfailed]
      exact keep_refused hrefused hnowhere hfailed (ih (hfailures.note_refused hrefused _))
  | @accepted slot rest rest' haccepted hrest ih =>
    rw [RunPlan.directoryPass, RunPlan.directoryPass]
    show Program.Alike options _ (if slot.entry.isFile then _ else _) (if slot.entry.isFile then _ else _)
    split
    · exact keep_accepted haccepted (ih hfailures)
    · cases ho : slot.outcome with
      | some o => exact keep_accepted haccepted (ih (hfailures.note slot.entry o))
      | none =>
        refine (alike_self Session.isHalted).bind ?_
        rintro halted _ rfl
        cases halted with
        | true => exact .done (.ok ⟨hfailures, .accepted haccepted hrest⟩)
        | false =>
          cases hp : slot.destination with
          | none => exact keep_accepted haccepted (ih hfailures)
          | some p =>
            refine (placeDirectory_alike hplan hfailures haccepted p).bind ?_
            rintro (err | ⟨outcome, made⟩) _ rfl
            · exact .done (.error err)
            · refine (entryDone_alike hquiet hnever _ _ _ _).bind fun _ _ _ => ?_
              exact keep_accepted haccepted (ih (hfailures.note slot.entry outcome))

theorem blockFiles_alike (hfailures : failures.AgreeBelow root failures') (hslots : Slot.Admits root slots slots') :
    (plan.blockFiles failures slots).Alike options (Slot.Admits root) (plan'.blockFiles failures' slots') := by
  induction hslots with
  | nil => exact .done .nil
  | @refused slot rest rest' message hrefused hnowhere hfailed hrest ih =>
    have hdecided : (slot.entry.isFile && slot.outcome.isNone) = false := by
      rw [hfailed, Option.isNone_some, Bool.and_false]
    rw [RunPlan.blockFiles, hdecided]
    exact ih.map_left fun _ _ hadmits => .refused hrefused hnowhere hfailed hadmits
  | @accepted slot rest rest' haccepted hrest ih =>
    rw [RunPlan.blockFiles, RunPlan.blockFiles, hfailures.blocked? haccepted]
    cases hblocked : (if slot.entry.isFile && slot.outcome.isNone then
      RunPlan.blocked? failures slot.entry else none) with
    | none => exact ih.bind fun _ _ hadmits => .done (.accepted haccepted hadmits)
    | some o =>
      refine (entryDone_alike hquiet hnever _ _ _ _).bind fun _ _ _ => ?_
      exact ih.bind fun _ _ hadmits => .done (.accepted haccepted hadmits)

theorem directories_alike (hplan : plan.Resembles plan') (hslots : Slot.Admits root slots slots') :
    (plan.directories slots).Alike options (SameEnd (Slot.Admits root)) (plan'.directories slots') := by
  have hnone : RunPlan.Failures.AgreeBelow root [] [] := fun _ _ => rfl
  refine (directoryPass_alike hquiet hnever hplan hnone hslots).bind ?_
  rintro _ _ (⟨hpassed⟩ | err)
  · exact (blockFiles_alike hquiet hnever hpassed.1 hpassed.2).bind
      fun _ _ hadmits => .done (.ok hadmits)
  · exact .done (.error err)

theorem placeFile_alike (hplan : plan.Resembles plan') (image : Image) (destination : Path) (e : Entry) :
    (plan.placeFile image destination e).Alike options (· = ·) (plan'.placeFile image destination e) := by
  have hlast : ∀ outcome : Outcome, Program.Alike options (· = ·)
      (do
        plan.entryDone e.path (if outcome.isWritten then (image.content e).length else 0)
        return outcome)
      (do
        plan'.entryDone e.path (if outcome.isWritten then (image.content e).length else 0)
        return outcome) := fun outcome =>
    (entryDone_alike hquiet hnever _ _ _ _).bind fun _ _ _ => .done rfl
  rw [RunPlan.placeFile, RunPlan.placeFile, hplan.writeFile]
  refine (alike_self _).bind ?_
  rintro (err | outcome) _ rfl
  · dsimp only
    rw [hplan.fileFailed]
    refine (alike_self _).bind ?_
    rintro outcome _ rfl
    exact hlast outcome
  · exact hlast outcome

theorem fileJob_alike (hplan : plan.Resembles plan') (image : Image) (pending : List Slot) (i : Nat) :
    (plan.fileJob image pending i).Alike options (· = ·) (plan'.fileJob image pending i) := by
  rw [RunPlan.fileJob, RunPlan.fileJob]
  split
  · next e destination o made hslot =>
    exact placeFile_alike hquiet hnever hplan image destination e
  · exact .done rfl

omit hquiet hnever in
theorem finishDirectory_alike (haccepted : acceptsPath root slot.entry.path = true) :
    (RunPlan.finishDirectory slot).Alike options
      (fun slot slot' => slot' = slot ∧ acceptsPath root slot.entry.path = true) (RunPlan.finishDirectory slot) := by
  rw [RunPlan.finishDirectory]
  split
  · refine (alike_self _).bind ?_
    rintro (err | ⟨⟩) _ rfl
    · exact .done ⟨rfl, haccepted⟩
    · exact .done ⟨rfl, haccepted⟩
  · exact .done ⟨rfl, haccepted⟩

omit hquiet hnever in
theorem finishDirectories_alike (hslots : Slot.Admits root slots slots') :
    (RunPlan.finishDirectories slots).Alike options (Slot.Admits root) (RunPlan.finishDirectories slots') := by
  induction hslots with
  | nil => exact .done .nil
  | @refused slot rest rest' message hrefused hnowhere hfailed hrest ih =>
    have hfinish : RunPlan.finishDirectory slot = .done slot := by
      rw [RunPlan.finishDirectory, hnowhere]
      split
      · next heq => cases heq
      · rfl
    rw [RunPlan.finishDirectories, hfinish]
    exact ih.map_left fun _ _ hadmits => .refused hrefused hnowhere hfailed hadmits
  | @accepted slot rest rest' haccepted hrest ih =>
    rw [RunPlan.finishDirectories, RunPlan.finishDirectories]
    refine ih.bind fun _ _ hadmits => (finishDirectory_alike haccepted).bind ?_
    rintro slot _ ⟨rfl, haccepted⟩
    exact .done (.accepted haccepted hadmits)

end Passes

/-! ## Runs in lockstep -/

/-- The second report is the first one without the refused entries, which failed for their paths. -/
structure Report.Isolates (root : Path) (report report' : Report) : Prop where
  rest : report' = .new report.target (report.entries.filter fun r => acceptsPath root r.path) report.bytesWritten
    report.cancelled
  refused : ∀ r ∈ report.entries, acceptsPath root r.path = false → ∃ message, r.outcome = .failed .path message

theorem Slot.Admits.isolates (h : Slot.Admits root slots slots') (target : Path) (bytesWritten : Nat) (cancelled : Bool) :
    Report.Isolates root (.new target (slots.map (·.report)) bytesWritten cancelled)
      (.new target (slots'.map (·.report)) bytesWritten cancelled) := by
  refine ⟨by rw [h.map_report]; rfl, List.forall_mem_map.2 ?_⟩
  intro slot hslot hrefused
  obtain ⟨message, hfailed⟩ := h.failed_of_refused slot hslot hrefused
  exact ⟨message, by rw [Slot.report, hfailed]; rfl⟩

theorem conclude_alike (hplan : plan.Resembles plan') (hslots : Slot.Admits root slots slots') (bytesWritten : Nat) :
    (plan.conclude slots bytesWritten).Alike options (Report.Isolates root) (plan'.conclude slots' bytesWritten) := by
  obtain ⟨filter, rejected, entriesTotal, bytesTotal, rfl⟩ := hplan
  refine (finishDirectories_alike hslots).bind fun _ _ hadmits => (alike_self _).bind ?_
  rintro cancelled _ rfl
  exact .done (hadmits.isolates plan.root bytesWritten cancelled)

section Runs

variable (hquiet : options.IsQuiet) (hnever : options.NeverCancels)
  (hschedules : options.workers ≤ 1 ∨ schedule' = schedule)

include hquiet hnever hschedules

theorem files_alike (hoptions : plan.options = options) (hplan : plan.Resembles plan') (image : Image)
    (pending : List Slot) (hst : s.SameButTold t) :
    (plan.files schedule image pending s).1 = (plan'.files schedule' image pending t).1 ∧
      (plan.files schedule image pending s).2.SameButTold (plan'.files schedule' image pending t).2 := by
  have hsame : plan.files schedule' image pending s = plan.files schedule image pending s := by
    obtain hone | rfl := hschedules
    · exact runBounded_of_le_one (hoptions ▸ hone) schedule' schedule s
    · rfl
  rw [← hsame, RunPlan.files, RunPlan.files, hplan.handler, hplan.workers, hoptions]
  exact runBounded_inStep (alike_self _) (fileJob_alike hquiet hnever hplan image pending) schedule' options.workers hst

/-- The passes of two runs, the second one without the refused entries. -/
theorem execute_alike (hoptions : plan.options = options) (hplan : plan.Resembles plan')
    (hslots : Slot.Admits root slots slots') (hst : s.SameButTold t) :
    SameEnd (Report.Isolates root) (plan.execute schedule image slots s).1 (plan'.execute schedule' image slots' t).1 ∧
      (plan.execute schedule image slots s).2.SameButTold (plan'.execute schedule' image slots' t).2 := by
  rw [RunPlan.execute, RunPlan.execute, hplan.handler, hoptions]
  obtain ⟨hend, hst₁⟩ := (directories_alike hquiet hnever hplan hslots).run hst
  generalize (plan.directories slots).run (RunState.handler options) s = x at hend hst₁
  generalize (plan'.directories slots').run (RunState.handler options) t = y at hend hst₁
  obtain ⟨_, s₁⟩ := x
  obtain ⟨_, t₁⟩ := y
  obtain @⟨placed, placed', hadmits⟩ | err := hend
  · dsimp only
    rw [hadmits.filter_isPending]
    obtain ⟨hresults, hst₂⟩ :=
      files_alike hquiet hnever hschedules hoptions hplan image (placed.filter (·.isPending)) hst₁
    generalize plan.files schedule image (placed.filter (·.isPending)) s₁ = x at hresults hst₂
    generalize plan'.files schedule' image (placed.filter (·.isPending)) t₁ = y at hresults hst₂
    obtain ⟨results, s₂⟩ := x
    obtain ⟨_, t₂⟩ := y
    obtain rfl := hresults
    dsimp only
    rw [hst₂.fatal, hst₂.bytesWritten]
    cases s₂.fatal with
    | some cause => exact ⟨.error _, hst₂⟩
    | none =>
      obtain ⟨hreports, hst₃⟩ := (conclude_alike hplan (hadmits.assignResults results) s₂.bytesWritten).run hst₂
      exact ⟨.ok hreports, hst₃⟩
  · exact ⟨.error err, hst₁⟩

/-! ## Extraction -/

omit hquiet hnever hschedules in
theorem prepare_alike {bytes : Bytes} (hparse : Image.parse bytes = .ok image) (hlenient : options.strict = false)
    (hall : options.filter = none) (root cwd executable : Path) (target : Option Path) :
    (prepare options cwd executable image target).Alike options
      (SameEnd fun x y => x.1.options = options ∧ x.1.Resembles y.1 ∧ Slot.Admits root x.2 y.2)
      (prepare (options.acceptedOnly root) cwd executable image target) := by
  have hdefault : (options.acceptedOnly root).defaultRoot = options.defaultRoot := rfl
  have hstrict : (options.acceptedOnly root).strict = false := hlenient
  rw [prepare, prepare, Image.select_acceptedOnly hparse, hall, hdefault, hstrict, hlenient]
  refine (alike_self _).bind ?_
  rintro cancelled _ rfl
  cases cancelled with
  | true => exact .done (.error _)
  | false =>
    cases resolveRoot cwd executable options.defaultRoot target with
    | error err => exact .done (.error err)
    | ok root' =>
      obtain ⟨slots, slots', hslots, hslots', hadmits⟩ := exists_slotsFor_lenient root root' image.manifest.entries
      simp only [Manifest.select, hslots, hslots', Bool.false_eq_true, if_false]
      refine (alike_self _).bind ?_
      rintro (err | realRoot) _ rfl
      · exact .done (.error err)
      · exact .done (.ok ⟨rfl, ⟨_, _, _, _, rfl⟩, hadmits⟩)

/-- The run, and the one that leaves out the refused entries. -/
theorem extract_alike {bytes : Bytes} (hparse : Image.parse bytes = .ok image) (hlenient : options.strict = false)
    (hall : options.filter = none) (root : Path) (target : Option Path) (hst : s.SameButTold t) :
    SameEnd (Report.Isolates root) (extract options schedule image target s).1
        (extract (options.acceptedOnly root) schedule' image target t).1 ∧
      (extract options schedule image target s).2.SameButTold
        (extract (options.acceptedOnly root) schedule' image target t).2 := by
  have hhandler : RunState.handler (options.acceptedOnly root) = RunState.handler options := RunState.handler_filter _ _
  rw [extract, extract, hhandler, hst.fs]
  obtain ⟨hprepared, hst₁⟩ :=
    (prepare_alike hparse hlenient hall root s.fs.cwd.toPath s.fs.executable target).run hst
  generalize (prepare options s.fs.cwd.toPath s.fs.executable image target).run _ s = x at hprepared hst₁
  generalize (prepare (options.acceptedOnly root) s.fs.cwd.toPath s.fs.executable image target).run _ t = y
    at hprepared hst₁
  obtain ⟨_, s₁⟩ := x
  obtain ⟨_, t₁⟩ := y
  obtain @⟨⟨plan, slots⟩, ⟨plan', slots'⟩, hoptions, hplan, hadmits⟩ | err := hprepared
  · exact execute_alike hquiet hnever hschedules hoptions hplan hadmits hst₁
  · exact ⟨.error err, hst₁⟩

end Runs

/-- **A lenient run isolates unsafe entries.** It leaves the same file system as a run with the filter that leaves them
    out, and writes as many bytes. Its report has every entry of the image: those with unsafe paths failed for them, and
    the others are reported by the second run as well, with the same outcomes. With one worker the schedules make no
    difference; more of them have to take the same turns. -/
theorem extract_isolates_unsafe {options : ExtractOptions} (hquiet : options.IsQuiet) (hnever : options.NeverCancels)
    (hlenient : options.strict = false) (hall : options.filter = none) {schedule schedule' : List Nat}
    (hschedules : options.workers ≤ 1 ∨ schedule' = schedule) {bytes : Bytes} {image : Image}
    (hparse : Image.parse bytes = .ok image) (target : Option Path) (fs : FileSystem) (root : Path)
    {result result' : Except ExtractError Report} {s s' : RunState}
    (h : extract options schedule image target (.start fs options) = (result, s))
    (h' : extract (options.acceptedOnly root) schedule' image target (.start fs (options.acceptedOnly root)) =
      (result', s')) :
    s'.fs = s.fs ∧ s'.bytesWritten = s.bytesWritten ∧ ((∃ err, result = .error err ∧ result' = .error err) ∨
      ∃ report report', result = .ok report ∧ result' = .ok report' ∧ report.Isolates root report' ∧
        report.entries.map (·.path) = image.manifest.entries.map (·.path)) := by
  have hcomplete : ∀ report, result = .ok report →
      report.entries.map (·.path) = image.manifest.entries.map (·.path) := by
    rintro report rfl
    obtain ⟨plan, slots, t, -, -, hslots, -, ⟨c⟩⟩ := extract_course h
    rw [hall] at hslots
    have hfinished : c.finished.map (·.entry) = image.manifest.entries := c.map_entry (slotsFor_opened hslots)
    have hentries : report.entries = c.finished.map (·.report) := congrArg Report.entries c.report
    rw [hentries, ← hfinished, List.map_map, List.map_map]
    rfl
  have hstart : (RunState.start fs options).SameButTold (.start fs (options.acceptedOnly root)) := ⟨[], rfl⟩
  obtain ⟨hend, hsame⟩ := extract_alike hquiet hnever hschedules hparse hlenient hall root target hstart
  rw [h, h'] at hend hsame
  refine ⟨hsame.fs, hsame.bytesWritten, ?_⟩
  obtain @⟨report, report', hreports⟩ | err := hend
  · exact .inr ⟨report, report', rfl, rfl, hreports, hcomplete report rfl⟩
  · exact .inl ⟨err, rfl, rfl⟩

/-- A directory and the file in it have unsafe paths, and fail. The others are created as in a run without them. -/
theorem extract_isolates_unsafe_parent :
    let options : ExtractOptions := { workers := 1, strict := false }
    let image : Image := .written ⟨[.directory ".." none, .directory "d" none, .file "../f" 0 0 (.of []) none,
      .file "d/g" 0 1 (.of [120]) none]⟩ [120]
    let root : Path := .ofString "/out"
    options.IsQuiet ∧ options.NeverCancels ∧ Image.parse image.source = .ok image ∧
      ∃ report s report' s',
        extract options [] image (some root) (.start (rootWith []) options) = (.ok report, s) ∧
        extract (options.acceptedOnly root) [0, 1] image (some root) (.start (rootWith []) (options.acceptedOnly root)) =
          (.ok report', s') ∧
        report.entries = [⟨"..", .directory, .ofError (.unsafePath ".." .dotDotSegment)⟩, ⟨"d", .directory, .created⟩,
          ⟨"../f", .file, .ofError (.unsafePath "../f" .dotDotSegment)⟩, ⟨"d/g", .file, .created⟩] ∧
        report'.entries = [⟨"d", .directory, .created⟩, ⟨"d/g", .file, .created⟩] ∧
        s'.fs = s.fs ∧ s'.bytesWritten = s.bytesWritten ∧ report.Isolates root report' := by
  intro options image root
  have hquiet : options.IsQuiet := fun _ hlistener => nomatch hlistener
  have hnever : options.NeverCancels := ⟨fun _ htoken => (nomatch htoken), fun _ hlistener => (nomatch hlistener)⟩
  have hvalid : ∀ d d' : Digest, Manifest.validate
      ⟨[.directory ".." none, .directory "d" none, .file "../f" 0 0 d none, .file "d/g" 0 1 d' none]⟩ 1 = .ok () := by
    intro d d'
    cbv
  have hparse : Image.parse image.source = .ok image :=
    Image.parse_written (by decide) (by decide) (hvalid _ _) (by decide)
  have hentries : (extract options [] image (some root) (.start (rootWith []) options)).1.toOption.map
      (fun r => (r.target, r.entries)) = some (root, [⟨"..", .directory, .ofError (.unsafePath ".." .dotDotSegment)⟩,
        ⟨"d", .directory, .created⟩, ⟨"../f", .file, .ofError (.unsafePath "../f" .dotDotSegment)⟩,
        ⟨"d/g", .file, .created⟩]) := by decide +kernel
  obtain ⟨report, hrun, -, hlist⟩ := exists_entries hentries
  rcases hrun' : extract (options.acceptedOnly root) [0, 1] image (some root)
    (.start (rootWith []) (options.acceptedOnly root)) with ⟨result', s'⟩
  obtain ⟨hfs, hbytes, ⟨err, heq, -⟩ | ⟨_, report', ⟨⟩, rfl, hisolates, -⟩⟩ :=
    extract_isolates_unsafe hquiet hnever rfl rfl (.inl (Nat.le_refl 1)) hparse (some root) (rootWith []) root hrun hrun'
  · cases heq
  · refine ⟨hquiet, hnever, hparse, report, _, report', s', hrun, rfl, hlist, ?_, hfs, hbytes, hisolates⟩
    have hrest : report'.entries = report.entries.filter fun r => acceptsPath root r.path :=
      congrArg Report.entries hisolates.rest
    rw [hrest, hlist]
    decide +kernel

end TreeImage
