import TreeImage.Extract.Run
import TreeImage.Proofs.Extract.Calm
import TreeImage.Proofs.Extract.Homes
import TreeImage.Proofs.Extract.Writing
import TreeImage.Proofs.Program.InOrder

set_option autoImplicit false

/-! # What the file pass does

With one worker the files are written one after the other, and nobody interferes. With several workers
that nothing stops, every file is written as if its worker were alone, if no two files work at the same
place. Either way `Slot.Settled` says what becomes of the destination of a file. -/

namespace TreeImage

open FileSystem Holding

variable {real d : RealPath} {start fs : FileSystem} {pending : List Slot} {slot : Slot} {plan : RunPlan}
  {image : Image} {options : ExtractOptions} {s s' : RunState} {p : Path} {e : Entry} {content : Bytes}

/-! ## One file -/

theorem isIdle_entryDone (plan : RunPlan) (path : String) (written : Nat) :
    (plan.entryDone path written).IsIdle :=
  ⟨trivial, fun _ => ⟨trivial, fun _ => ⟨trivial, fun _ => trivial⟩⟩⟩

theorem isTacit_fileFailed (plan : RunPlan) (err : ExtractError) : (plan.fileFailed err).IsTacit := by
  rw [RunPlan.fileFailed]
  split
  · exact ⟨trivial, fun _ => ⟨trivial, fun _ => trivial⟩⟩
  · split
    · exact ⟨trivial, fun _ => trivial⟩
    · trivial

theorem run_fileFailed (plan : RunPlan) (err : ExtractError) (s : RunState) :
    ((plan.fileFailed err).run (RunState.handler options) s).1 = .ofError err := by
  rw [RunPlan.fileFailed]
  split
  · rfl
  · split <;> rfl

/-- The outcome that a result is reported as. -/
def Outcome.ofResult : Except ExtractError Outcome → Outcome
  | .ok o => o
  | .error e => .ofError e

/-- A file entry comes to what the attempt to write it comes to. -/
theorem run_placeFile (hquiet : options.IsQuiet) (s : RunState) {result : Except ExtractError Outcome}
    (hwrite : (writeFile plan.options plan.realRoot p e (image.content e)).run answer s.fs = (result, fs)) :
    ((plan.placeFile image p e).run (RunState.handler options) s).1 = .ofResult result ∧
      ((plan.placeFile image p e).run (RunState.handler options) s).2.fs = fs ∧
      (options.NeverCancels → plan.options.stopOnFirstError = false →
        (∀ err, result = .error err → err.isPathError = false) → s.IsCalm →
        ((plan.placeFile image p e).run (RunState.handler options) s).2.IsCalm) := by
  obtain ⟨hresult, hfs, hcalm⟩ := run_onFiles options
    (writeFile plan.options plan.realRoot p e (image.content e)) s
  rw [hwrite] at hresult hfs
  have hfsEnd := fun written t => (isTacit_entryDone plan e.path written).run_fs hquiet t
  simp only [RunPlan.placeFile, bind, Program.run_bind, hresult]
  cases result with
  | ok o =>
    refine ⟨rfl, (hfsEnd _ _).trans hfs, ?_⟩
    intro hnever _ _ hs
    exact (isIdle_entryDone plan _ _).run_calm hquiet hnever (hcalm hs)
  | error err =>
    rw [Program.run_bind, run_fileFailed]
    refine ⟨rfl, ?_, ?_⟩
    · exact (hfsEnd _ _).trans (((isTacit_fileFailed plan err).run_fs hquiet _).trans hfs)
    · intro hnever hgo hpath hs
      refine (isIdle_entryDone plan _ _).run_calm hquiet hnever ?_
      rw [RunPlan.fileFailed, hpath err rfl, hgo]
      exact hcalm hs

theorem fileJob_eq {i : Nat} (hslot : pending[i]? = some slot) (hp : slot.destination = some p) :
    plan.fileJob image pending i = plan.placeFile image p slot.entry := by
  obtain ⟨e, destination, outcome, made⟩ := slot
  obtain rfl : destination = some p := hp
  rw [RunPlan.fileJob, hslot]

/-- Files fail for what stands in the way, for their names or for their content, but not for their paths. -/
theorem FileSettled.isPathError_eq_false {n : Name} {stageable : Prop} {v v' : Option Node}
    {err : ExtractError} (h : FileSettled options e n content stageable v (.error err) v') :
    err.isPathError = false := by
  cases h <;> simp [ExtractError.isPathError, *]

/-- What became of the home of a file. There is a name for its temporary file as soon as one of the usual
    names is free, where `taken` are the places at which other files may appear. -/
def Slot.Settled (options : ExtractOptions) (image : Image) (real : RealPath) (start fs : FileSystem)
    (taken : RealPath → Prop) (slot : Slot) (o : Outcome) : Prop :=
  ∃ stageable result, FileSettled options slot.entry slot.name (image.content slot.entry) stageable
      (start.get? (slot.entry.home real)) result (fs.get? (slot.entry.home real)) ∧
    o = .ofResult result ∧
    ∀ m < 62 ^ 6, start.get? (stagingPlace (slot.entry.folder real) slot.name m) = none →
      ¬taken (stagingPlace (slot.entry.folder real) slot.name m) →
      (stageable ↔ slot.name.length + 12 ≤ nameLimit)

/-- With one of the usual names free, what counts is the length of the name. -/
theorem Holding.Fits.stageable_iff {within : RealPath → Prop} {k : Holding} {n : Name} {m : Nat}
    (hfit : k.Fits start within fs) (hstaging : ∀ i, k.Holds (stagingPlace d n i)) (hm : m < 62 ^ 6)
    (hfree : fs.get? (stagingPlace d n m) = none) : k.Stageable d n ↔ n.length + 12 ≤ nameLimit := by
  obtain ⟨i, hfirst, hfresh⟩ := hfit.exists_firstFree hstaging
  rw [hfirst.stageable_iff, ← hfresh, length_freshName hm hfree]

/-! ## Several workers -/

/-- The places at which the file `n` in the directory at `d` is worked at. -/
def WorkPlace (d : RealPath) (n : Name) (q : RealPath) : Prop := q = d ++ [n] ∨ ∃ i, q = stagingPlace d n i

open Classical in
/-- Some of the places, with what stands there. -/
noncomputable def Holding.on (fs : FileSystem) (S : RealPath → Prop) : Holding :=
  fun q => if S q then some (fs.get? q) else none

namespace Holding

variable {S : RealPath → Prop} {q : RealPath}

theorem on_of_mem (fs : FileSystem) (hq : S q) : on fs S q = some (fs.get? q) := if_pos hq

theorem holds_on : (on fs S).Holds q ↔ S q := by
  by_cases hq : S q
  · simp [Holds, on_of_mem fs hq, hq]
  · simp [Holds, on, hq]

theorem fits_on {within : RealPath → Prop} (fs : FileSystem) (h : ∀ q, S q → within q) :
    (on fs S).Fits fs within fs := by
  refine ⟨.refl fs, ?_, fun q hq => h q (holds_on.1 hq)⟩
  intro q v hv
  have hq : S q := holds_on.1 (Option.isSome_iff_exists.2 ⟨v, hv⟩)
  rw [on_of_mem fs hq] at hv
  exact Option.some.inj hv

end Holding

/-- How a file can end that is dealt with as if it were the only one: its outcome, and what stands at its home then. -/
def Slot.Comes (options : ExtractOptions) (image : Image) (real : RealPath) (start : FileSystem) (slot : Slot)
    (o : Outcome) (v : Option Node) : Prop :=
  ∃ stageable result, FileSettled options slot.entry slot.name (image.content slot.entry) stageable
      (start.get? (slot.entry.home real)) result v ∧ o = .ofResult result ∧
    ∀ m < 62 ^ 6, start.get? (stagingPlace (slot.entry.folder real) slot.name m) = none →
      (stageable ↔ slot.name.length + 12 ≤ nameLimit)

/-- The job of a slot that holds its work places comes to one end, which is told by what stood there at the start. -/
theorem exists_placed (image : Image) {hquiet : options.IsQuiet} {hnever : options.NeverCancels}
    {within : RealPath → Prop} (hplan : plan.options = options) (hstop : options.stopOnFirstError = false)
    (hreal : real.IsProper) (hroot : plan.realRoot = real.toPath)
    (hnames : start.Names p (slot.entry.folder real) slot.name)
    (hheld : ∀ q, WorkPlace (slot.entry.folder real) slot.name q → within q) :
    ∃ o v, slot.Comes options image real start o v ∧ ∀ s, (plan.placeFile image p slot.entry).Obeys
      ((holding start within).inCalm hquiet hnever)
      (fun o' k _ => o' = o ∧
        k = (on start (WorkPlace (slot.entry.folder real) slot.name)).set (slot.entry.home real) v)
      (on start (WorkPlace (slot.entry.folder real) slot.name)) s := by
  have hwritable : Writable start (on start (WorkPlace (slot.entry.folder real) slot.name)) p
      (slot.entry.folder real) slot.name :=
    ⟨hnames, slot.entry.lossy_name, holds_on.2 (.inl rfl), fun i => holds_on.2 (.inr ⟨i, rfl⟩)⟩
  have hfit := fits_on (S := WorkPlace (slot.entry.folder real) slot.name) start hheld
  have hhome : slot.entry.folder real ++ [slot.name] = slot.entry.home real := (slot.entry.home_eq real).symm
  obtain ⟨result, k, ⟨v, hsettled, rfl⟩, hobeys⟩ := (writeFile_foretold hwritable hreal (slot.entry.prefix_folder real)
    (on_of_mem start (.inl rfl)) options slot.entry).exists_end hfit
  rw [hhome] at hsettled hobeys
  refine ⟨.ofResult result, v, ⟨_, result, hsettled, rfl, fun m hm => hfit.stageable_iff hwritable.staging hm⟩, ?_⟩
  intro s
  have hend : ∀ (k : Holding) (t : RunState), k = (on start (WorkPlace (slot.entry.folder real) slot.name)).set
      (slot.entry.home real) v → (do
        plan.entryDone slot.entry.path
          (if (Outcome.ofResult result).isWritten then (image.content slot.entry).length else 0)
        return .ofResult result : Program Session Outcome).Obeys ((holding start within).inCalm hquiet hnever)
        (fun o' k _ => o' = .ofResult result ∧
          k = (on start (WorkPlace (slot.entry.folder real) slot.name)).set (slot.entry.home real) v) k t := by
    intro k t hk
    refine (isIdle_entryDone plan _ _).obeys.bind ?_
    rintro ⟨⟩ _ u rfl
    exact ⟨rfl, hk⟩
  rw [RunPlan.placeFile, hroot, hplan]
  refine (hobeys s.fs).onFilesCalm.bind ?_
  rintro result k t ⟨rfl, hk⟩
  cases result with
  | ok o => exact hend k t hk
  | error err =>
    have hfailed : plan.fileFailed err = .done (.ofError err) := by
      rw [RunPlan.fileFailed, hsettled.isPathError_eq_false, hplan, hstop]
      rfl
    simp only [hfailed]
    exact hend k t hk

/-- Two files have no place in common if neither is a temporary file of the other. -/
theorem workPlace_disjoint {d d' : RealPath} {n n' : Name} (hne : d ++ [n] ≠ d' ++ [n'])
    (hapart : ∀ i, d ++ [n] ≠ stagingPlace d' n' i) (hapart' : ∀ i, d' ++ [n'] ≠ stagingPlace d n i)
    (q : RealPath) : ¬(WorkPlace d n q ∧ WorkPlace d' n' q) := by
  rintro ⟨rfl | ⟨i, rfl⟩, h | ⟨j, h⟩⟩
  · exact hne h
  · exact hapart j h
  · exact hapart' i h.symm
  · obtain ⟨hd, hname⟩ := List.append_inj' h rfl
    obtain ⟨rfl, -⟩ := eq_of_temporaryName_eq (List.singleton_inj.1 hname)
    exact hne (by rw [hd])

/-- The claims of the jobs: every job holds the places at which its file is worked at. -/
noncomputable def jobHolding (start : FileSystem) (real : RealPath) (pending : List Slot) (i : Nat) :
    Holding :=
  match pending[i]? with
  | some slot => on start (WorkPlace (slot.entry.folder real) slot.name)
  | none => fun _ => none

/-- No two files work at the same place. -/
def WorkApart (real : RealPath) (pending : List Slot) : Prop :=
  ∀ (i j : Nat) (slot slot' : Slot), pending[i]? = some slot → pending[j]? = some slot' → i ≠ j →
    ∀ q, ¬(WorkPlace (slot.entry.folder real) slot.name q ∧ WorkPlace (slot'.entry.folder real) slot'.name q)

theorem WorkApart.jobHolding (h : WorkApart real pending) (start : FileSystem) {i j : Nat} (hne : i ≠ j) :
    Holding.Apart (jobHolding start real pending i) (jobHolding start real pending j) := by
  intro q hq
  unfold TreeImage.jobHolding at hq
  cases hi : pending[i]? with
  | none => simp [hi, Holds] at hq
  | some slot =>
    cases hj : pending[j]? with
    | none => simp [hj, Holds] at hq
    | some slot' =>
      simp only [hi, hj, holds_on] at hq
      exact h i j slot slot' hi hj hne q hq

theorem fits_jobHolding (start : FileSystem) (real : RealPath) (pending : List Slot) (i : Nat) :
    (jobHolding start real pending i).Fits start
      (fun q => ∃ i, (jobHolding start real pending i).Holds q) start := by
  refine ⟨.refl start, ?_, fun q hq => ⟨i, hq⟩⟩
  intro q v hv
  cases hslot : pending[i]? with
  | none => simp [jobHolding, hslot] at hv
  | some slot =>
    simp only [jobHolding, hslot] at hv
    exact (fits_on start fun _ hq => hq).known q v hv

/-- What the discipline of the file pass leaves: a calm run, the frame, and all that nobody held. -/
theorem reach_calm {hquiet : options.IsQuiet} {hnever : options.NeverCancels} {within : RealPath → Prop}
    (hcalm : s.IsCalm) (hreach : ((holding s.fs within).inCalm hquiet hnever).Reach s s') :
    s'.IsCalm ∧ SameFrame s.fs s'.fs ∧ ∀ q, ¬within q → s'.fs.get? q = s.fs.get? q := by
  induction hreach with
  | refl => exact ⟨hcalm, .refl s.fs, fun _ _ => rfl⟩
  | tail _ hstep ih =>
    obtain ⟨k, k', c, hmay, hfit, hfit', rfl⟩ := hstep
    refine ⟨hfit'.2, hfit'.1.frame, ?_⟩
    intro q hq
    rw [← ih.2.2 q hq]
    by_cases hc : c.IsIdle
    · rw [(RunState.handler_idle hquiet hnever hc hfit.2).1]
    · cases c with
      | file c =>
        by_contra hne
        exact hq (hfit.1.within q (hmay.changed q hne))
      | stop => exact absurd hmay.1 hc
      | raise e => exact absurd hmay.1 hc
      | _ => exact absurd trivial hc

/-- What a run leaves whose jobs all came to their ends: the results, and the claims that are left. -/
structure JobsEnded (start : FileSystem) (real : RealPath) (pending : List Slot) (result : Nat → Outcome)
    (left : Nat → Holding) (results : List (Option Outcome)) (s' : RunState) : Prop where
  results : results = (List.range pending.length).map (some ∘ result)
  calm : s'.IsCalm
  frame : SameFrame start s'.fs
  held : ∀ i < pending.length, ∀ q v, left i q = some v → s'.fs.get? q = v
  other : ∀ q, (∀ i, ¬(jobHolding start real pending i).Holds q) → s'.fs.get? q = start.get? q

/-- **Workers that nothing stops come to one end.** Each file is dealt with as if it were the only one, so it makes no
    difference how many workers there are and which turns they take. -/
theorem exists_jobsEnded (image : Image) (hquiet : options.IsQuiet) (hnever : options.NeverCancels)
    (hstop : options.stopOnFirstError = false) (hcalm : s.IsCalm) (hplan : plan.options = options)
    (hreal : real.IsProper) (hroot : plan.realRoot = real.toPath)
    (hwithin : ∀ slot ∈ pending, slot.Within s.fs real) (hapart : WorkApart real pending) :
    ∃ (result : Nat → Outcome) (left : Nat → Holding),
      (∀ i slot, pending[i]? = some slot → ∃ v, slot.Comes options image real s.fs (result i) v ∧
        left i = (jobHolding s.fs real pending i).set (slot.entry.home real) v) ∧
      ∀ (schedule : List Nat) (workers : Nat), JobsEnded s.fs real pending result left
        (runBounded (RunState.handler options) schedule pending.length workers Session.isHalted
          (plan.fileJob image pending) s).1
        (runBounded (RunState.handler options) schedule pending.length workers Session.isHalted
          (plan.fileJob image pending) s).2 := by
  have hfit := fits_jobHolding s.fs real pending
  have hjob : ∀ i, ∃ o k, (∀ slot, pending[i]? = some slot → ∃ v, slot.Comes options image real s.fs o v ∧
      k = (jobHolding s.fs real pending i).set (slot.entry.home real) v) ∧
      ∀ t, (plan.fileJob image pending i).Obeys
        ((holding s.fs fun q => ∃ i, (jobHolding s.fs real pending i).Holds q).inCalm hquiet hnever)
        (fun o' k' _ => o' = o ∧ k' = k) (jobHolding s.fs real pending i) t := by
    intro i
    cases hi : pending[i]? with
    | none =>
      have hnothing : plan.fileJob image pending i = .done .notAttempted := by rw [RunPlan.fileJob, hi]; rfl
      rw [hnothing]
      exact ⟨_, _, nofun, fun t => ⟨rfl, rfl⟩⟩
    | some slot =>
      obtain ⟨p, hp, hnames⟩ := hwithin slot (List.mem_of_getElem? hi)
      have hholding : jobHolding s.fs real pending i =
          on s.fs (WorkPlace (slot.entry.folder real) slot.name) := by rw [jobHolding, hi]
      have hheld : ∀ q, WorkPlace (slot.entry.folder real) slot.name q →
          ∃ i, (jobHolding s.fs real pending i).Holds q := fun q hq => ⟨i, hholding ▸ holds_on.2 hq⟩
      obtain ⟨o, v, hcomes, hobeys⟩ := exists_placed image hplan hstop hreal hroot hnames hheld
      rw [fileJob_eq hi hp, hholding]
      refine ⟨o, _, ?_, hobeys⟩
      rintro _ ⟨⟩
      exact ⟨v, hcomes, rfl⟩
  choose result left hends hobeys using hjob
  refine ⟨result, left, hends, fun schedule workers => ?_⟩
  have hgrants : ∀ i j, i ≠ j → ((holding s.fs fun q => ∃ i, (jobHolding s.fs real pending i).Holds q).inCalm
      hquiet hnever).apart (jobHolding s.fs real pending i) (jobHolding s.fs real pending j) :=
    fun i j hne => hapart.jobHolding s.fs hne
  obtain ⟨hresults, hreach, hleft⟩ := runBounded_foretold hgrants says_isHalted hobeys schedule pending.length workers
    fun i => ⟨hfit i, hcalm⟩
  obtain ⟨hcalm', hframe, houtside⟩ := reach_calm hcalm hreach
  exact ⟨hresults, hcalm', hframe, fun i hi => (hleft i hi).1.known, fun q hq => houtside q fun ⟨i, hi⟩ => hq i hi⟩

/-- **Several workers that nothing stops** deal with every file as if it were the only one. -/
theorem files_calm (hquiet : options.IsQuiet) (hnever : options.NeverCancels)
    (hstop : options.stopOnFirstError = false) (hcalm : s.IsCalm) (hplan : plan.options = options)
    (hreal : real.IsProper) (hroot : plan.realRoot = real.toPath)
    (hwithin : ∀ slot ∈ pending, slot.Within s.fs real) (hapart : WorkApart real pending)
    (schedule : List Nat) {results : List (Option Outcome)}
    (h : plan.files schedule image pending s = (results, s')) :
    s'.IsCalm ∧ SameFrame s.fs s'.fs ∧ AgreeOutside (IsHome real pending) s.fs s'.fs ∧
      ∃ os : List Outcome, results = os.map some ∧ os.length = pending.length ∧
        ∀ (i : Nat) (slot : Slot) (o : Outcome), pending[i]? = some slot → os[i]? = some o →
          slot.Settled options image real s.fs s'.fs (IsHome real pending) o := by
  subst hplan
  obtain ⟨result, left, hends, hended⟩ :=
    exists_jobsEnded image hquiet hnever hstop hcalm rfl hreal hroot hwithin hapart
  replace hended := hended schedule plan.options.workers
  rw [RunPlan.files] at h
  rw [h] at hended
  have hlt : ∀ {i : Nat} {slot : Slot}, pending[i]? = some slot → i < pending.length :=
    fun hslot => (List.getElem?_eq_some_iff.1 hslot).1
  refine ⟨hended.calm, hended.frame, ⟨hended.frame.cwd, hended.frame.executable, ?_⟩,
    (List.range pending.length).map result, by rw [List.map_map]; exact hended.results, by simp, ?_⟩
  · intro q hq
    by_cases hheld : ∃ i, (jobHolding s.fs real pending i).Holds q
    · obtain ⟨i, hi⟩ := hheld
      -- a work place that is no home is as it was when the job is done
      cases hslot : pending[i]? with
      | none => simp [jobHolding, hslot, Holds] at hi
      | some slot =>
        obtain ⟨v, -, hleft⟩ := hends i slot hslot
        have hne : q ≠ slot.entry.home real := fun h => hq ⟨slot, List.mem_of_getElem? hslot, h⟩
        refine hended.held i (hlt hslot) q _ ?_
        rw [hleft, set_of_ne hne, (fits_jobHolding s.fs real pending i).eq_get? hi]
    · exact hended.other q fun i hi => hheld ⟨i, hi⟩
  · intro i slot o hslot ho
    obtain ⟨v, ⟨stageable, outcome, hsettled, ho', hstageable⟩, hleft⟩ := hends i slot hslot
    have hv : s'.fs.get? (slot.entry.home real) = v := hended.held i (hlt hslot) _ _ (hleft ▸ set_self ..)
    obtain rfl : result i = o := by simpa [hlt hslot] using ho
    exact ⟨stageable, outcome, hv ▸ hsettled, ho', fun m hm hfree _ => hstageable m hm hfree⟩

/-! ## One worker -/

/-- The destination of a slot spells the home of its entry, if it leads anywhere. -/
def Slot.Aimed (start : FileSystem) (real : RealPath) (slot : Slot) : Prop :=
  ∃ r, RealPath.IsProper (r ++ [slot.name]) ∧ slot.destination = some (RealPath.toPath (r ++ [slot.name])) ∧
    ∀ d, start.LeadsTo r.toPath d → d = slot.entry.folder real

/-- What became of a file: its directory is there and it was dealt with, or nothing was done. -/
def Slot.DealtWith (options : ExtractOptions) (image : Image) (real : RealPath) (start fs : FileSystem)
    (taken : RealPath → Prop) (slot : Slot) (o : Outcome) : Prop :=
  slot.Within start real ∧ slot.Settled options image real start fs taken o ∨
    ¬slot.Within start real ∧ fs.get? (slot.entry.home real) = start.get? (slot.entry.home real) ∧
      ∃ err, o = .ofError err

section OneWorker

variable {taken : RealPath → Prop} {fs' : FileSystem} {o : Outcome}

/-- What became of a file does not depend on what happens elsewhere. -/
theorem Slot.DealtWith.congr (h : slot.DealtWith options image real start fs taken o)
    (hsame : fs'.get? (slot.entry.home real) = fs.get? (slot.entry.home real)) :
    slot.DealtWith options image real start fs' taken o := by
  rcases h with ⟨hwithin, hsettled⟩ | ⟨hnot, hget, herr⟩
  · unfold Slot.Settled at hsettled
    rw [← hsame] at hsettled
    exact .inl ⟨hwithin, hsettled⟩
  · exact .inr ⟨hnot, hsame.trans hget, herr⟩

/-- One job of a worker that is alone. -/
theorem run_placeFile_alone (hquiet : options.IsQuiet) (hplan : plan.options = options)
    (hreal : real.IsProper) (hroot : plan.realRoot = real.toPath) (haimed : slot.Aimed start real)
    (hp : slot.destination = some p) (hframe : SameFrame start s.fs)
    (hhome : s.fs.get? (slot.entry.home real) = start.get? (slot.entry.home real))
    (hfree : ∀ q, start.get? q = none → ¬taken q → s.fs.get? q = none) {s' : RunState}
    (hrun : (plan.placeFile image p slot.entry).run (RunState.handler options) s = (o, s')) :
    SameFrame s.fs s'.fs ∧ AgreeOutside (· = slot.entry.home real) s.fs s'.fs ∧
      slot.DealtWith options image real start s'.fs taken o ∧
      (options.NeverCancels → options.stopOnFirstError = false → slot.Within start real → s.IsCalm →
        s'.IsCalm) := by
  obtain ⟨r, hproper, hdestination, hfolder⟩ := haimed
  obtain rfl := Option.some.inj (hp.symm.trans hdestination)
  by_cases hleads : ∃ d, start.LeadsTo r.toPath d
  · obtain ⟨d, hd⟩ := hleads
    obtain rfl := hfolder d hd
    have hnames : start.Names (RealPath.toPath (r ++ [slot.name])) (slot.entry.folder real) slot.name :=
      ⟨r, hproper, rfl, hd⟩
    have hwritable : Writable s.fs (all s.fs) (RealPath.toPath (r ++ [slot.name]))
        (slot.entry.folder real) slot.name :=
      ⟨hframe.keeps.names hnames, slot.entry.lossy_name, rfl, fun _ => rfl⟩
    have hobeys : (writeFile options real.toPath (RealPath.toPath (r ++ [slot.name])) slot.entry
        (image.content slot.entry)).Obeys (holding s.fs fun _ => True) _ (all s.fs) s.fs :=
      (writeFile_foretold hwritable hreal (slot.entry.prefix_folder real) rfl options slot.entry).obeys
    obtain ⟨k, ⟨v, hsettled, rfl⟩, hfit, -⟩ := hobeys.run (fits_all s.fs)
    cases hwrite : (writeFile options real.toPath (RealPath.toPath (r ++ [slot.name])) slot.entry
      (image.content slot.entry)).run answer s.fs with
    | mk result fs₁ =>
      rw [hwrite] at hsettled hfit
      rw [← hplan, ← hroot] at hwrite
      obtain ⟨ho, hfs, hcalm⟩ := run_placeFile hquiet s hwrite
      rw [hrun] at ho hfs hcalm
      obtain rfl : s'.fs = fs₁ := hfs
      have hhomeEq : slot.entry.folder real ++ [slot.name] = slot.entry.home real :=
        (slot.entry.home_eq real).symm
      rw [hhomeEq] at hsettled hfit
      have hv : s'.fs.get? (slot.entry.home real) = v := hfit.known _ _ (set_self ..)
      refine ⟨hfit.frame, ⟨hfit.frame.cwd, hfit.frame.executable, ?_⟩, .inl ⟨⟨_, hp, hnames⟩, ?_⟩, ?_⟩
      · intro q hq
        exact hfit.known q _ (set_of_ne hq _ _)
      · refine ⟨(all s.fs).Stageable (slot.entry.folder real) slot.name, result, ?_, ho, ?_⟩
        · rw [hv, ← hhome]
          exact hsettled
        · intro m hm hnone htaken
          exact (fits_all s.fs).stageable_iff (fun _ => rfl) hm (hfree _ hnone htaken)
      · intro hnever hstop _ hs
        refine hcalm hnever (hplan ▸ hstop) ?_ hs
        rintro err rfl
        exact hsettled.isPathError_eq_false
  · have hnot : ¬slot.Within start real := by
      rintro ⟨p, hp', hnames⟩
      obtain rfl := Option.some.inj (hp.symm.trans hp')
      exact hleads ⟨_, hnames.leadsTo hproper⟩
    have hastray : ¬∃ d, s.fs.LeadsTo r.toPath d := fun ⟨d, hd⟩ => hleads ⟨d, hframe.symm.keeps.leadsTo hd⟩
    obtain ⟨err, hwrite⟩ := writeFile_astray hreal hproper hastray options slot.entry
      (image.content slot.entry)
    rw [← hplan, ← hroot] at hwrite
    obtain ⟨ho, hfs, -⟩ := run_placeFile hquiet s hwrite
    rw [hrun] at ho hfs
    obtain hfs : s'.fs = s.fs := hfs
    rw [hfs]
    exact ⟨.refl s.fs, .refl _ s.fs, .inr ⟨hnot, hhome, err, ho⟩, fun _ _ hwithin => absurd hwithin hnot⟩

/-- What holds of a single worker's run after the first files. -/
structure InOrder (options : ExtractOptions) (image : Image) (real : RealPath) (pending : List Slot)
    (s : RunState) (os : List Outcome) (t : RunState) : Prop where
  frame : SameFrame s.fs t.fs
  done : ∀ (i : Nat) (slot : Slot) (o : Outcome), pending[i]? = some slot → os[i]? = some o →
    slot.DealtWith options image real s.fs t.fs (IsHome real pending) o
  other : ∀ q, (∀ (i : Nat) (slot : Slot), i < os.length → pending[i]? = some slot →
    q ≠ slot.entry.home real) → t.fs.get? q = s.fs.get? q
  calm : options.NeverCancels → options.stopOnFirstError = false →
    (∀ slot ∈ pending, slot.Within s.fs real) → s.IsCalm → t.IsCalm

/-- One more file keeps what holds after the first ones. -/
theorem InOrder.job (hquiet : options.IsQuiet) (hplan : plan.options = options) (hreal : real.IsProper)
    (hroot : plan.realRoot = real.toPath) (haimed : ∀ slot ∈ pending, slot.Aimed s.fs real)
    (hdiffer : HomesDiffer real pending) {os : List Outcome} {t t' : RunState} {o : Outcome}
    (h : InOrder options image real pending s os t) (hlt : os.length < pending.length)
    (hrun : (plan.fileJob image pending os.length).run (RunState.handler options) t = (o, t')) :
    InOrder options image real pending s (os ++ [o]) t' := by
  have hslot : pending[os.length]? = some pending[os.length] := List.getElem?_eq_getElem hlt
  have hmem : pending[os.length] ∈ pending := List.getElem_mem hlt
  generalize pending[os.length] = slot at hslot hmem
  obtain ⟨r, -, hp, -⟩ := haimed slot hmem
  rw [fileJob_eq hslot hp] at hrun
  have hhome : t.fs.get? (slot.entry.home real) = s.fs.get? (slot.entry.home real) :=
    h.other _ fun i slot' hi hslot' => hdiffer.ne hslot hslot' (Nat.ne_of_gt hi)
  have hfree : ∀ q, s.fs.get? q = none → ¬IsHome real pending q → t.fs.get? q = none := by
    intro q hq htaken
    rw [h.other q, hq]
    intro i slot' _ hslot' heq
    exact htaken ⟨slot', List.mem_of_getElem? hslot', heq⟩
  obtain ⟨hframe, hagree, hdealt, hcalm⟩ :=
    run_placeFile_alone hquiet hplan hreal hroot (haimed slot hmem) hp h.frame hhome hfree hrun
  refine ⟨h.frame.trans hframe, ?_, ?_, ?_⟩
  · intro i slot' o' hslot' ho'
    rw [List.getElem?_append] at ho'
    split at ho'
    · next hi =>
      exact (h.done i slot' o' hslot' ho').congr
        (hagree.get? _ fun heq => hdiffer.ne hslot' hslot (Nat.ne_of_lt hi) heq)
    · next hi =>
      obtain ⟨hlast, rfl⟩ := List.getElem?_eq_some_iff.1 ho'
      rw [List.length_singleton] at hlast
      obtain rfl : i = os.length := by omega
      obtain rfl := Option.some.inj (hslot.symm.trans hslot')
      simpa using hdealt
  · intro q hq
    rw [List.length_append] at hq
    rw [hagree.get? q (hq _ slot (Nat.lt_succ_self _) hslot)]
    exact h.other q fun i slot' hi => hq i slot' (Nat.lt_succ_of_lt hi)
  · intro hnever hstop hwithin hs
    exact hcalm hnever hstop (hwithin slot hmem) (h.calm hnever hstop hwithin hs)

theorem keptInOrder_files (hquiet : options.IsQuiet) (hplan : plan.options = options)
    (hreal : real.IsProper) (hroot : plan.realRoot = real.toPath)
    (haimed : ∀ slot ∈ pending, slot.Aimed s.fs real) (hdiffer : HomesDiffer real pending) :
    KeptInOrder (RunState.handler options) Session.isHalted (plan.fileJob image pending) pending.length
      (InOrder options image real pending s) := by
  constructor
  · intro os t h
    have hfs := isTacit_isHalted.run_fs hquiet t
    refine ⟨hfs ▸ h.frame, ?_, ?_, ?_⟩
    · rw [hfs]
      exact h.done
    · rw [hfs]
      exact h.other
    · intro hnever hstop hwithin hs
      exact isIdle_isHalted.run_calm hquiet hnever (h.calm hnever hstop hwithin hs)
  · intro os t h hlt _
    exact h.job hquiet hplan hreal hroot haimed hdiffer hlt rfl

/-- **One worker** deals with the files in order, with each as if it were the only one, until the run is
    halted. -/
theorem files_in_order (hquiet : options.IsQuiet) (hplan : plan.options = options) (hreal : real.IsProper)
    (hroot : plan.realRoot = real.toPath) (haimed : ∀ slot ∈ pending, slot.Aimed s.fs real)
    (hdiffer : HomesDiffer real pending) (hone : options.workers ≤ 1) (schedule : List Nat)
    {results : List (Option Outcome)} (h : plan.files schedule image pending s = (results, s')) :
    ∃ os : List Outcome, InOrder options image real pending s os s' ∧
      results = (List.range pending.length).map (os[·]?) ∧
      (options.NeverCancels → options.stopOnFirstError = false →
        (∀ slot ∈ pending, slot.Within s.fs real) → s.IsCalm → os.length = pending.length) := by
  subst hplan
  have hstart : InOrder plan.options image real pending s [] s := by
    refine ⟨.refl s.fs, ?_, fun _ _ => rfl, fun _ _ _ hs => hs⟩
    intro i slot o _ ho
    rw [List.getElem?_nil] at ho
    cases ho
  obtain ⟨os, hend, hlength, hresults, hstopped⟩ := runBounded_in_order
    (keptInOrder_files hquiet rfl hreal hroot haimed hdiffer) schedule hone hstart
  rw [RunPlan.files] at h
  rw [h] at hend hresults
  refine ⟨os, hend, hresults, ?_⟩
  intro hnever hstop hwithin hs
  refine Nat.le_antisymm hlength (Nat.not_lt.1 fun hlt => ?_)
  obtain ⟨t, ht, hhalted⟩ := hstopped hlt
  rw [run_isHalted hnever (ht.calm hnever hstop hwithin hs)] at hhalted
  exact Bool.false_ne_true hhalted

end OneWorker

end TreeImage
