import TreeImage.Proofs.Extract.Session
import TreeImage.Proofs.Program.Tickets

set_option autoImplicit false

/-! # Runs that nothing stops

A run is calm as long as it is neither cancelled nor told to stop and nothing fatal has happened. If
nobody cancels it, it stays calm unless one of its own parts stops it. A discipline in which no part does
(`inCalm`) is never halted. -/

namespace TreeImage

variable {α κ : Type} {options : ExtractOptions} {post : α → κ → FileSystem → Prop} {k : κ}

/-- Nobody cancels the run: the token is never set, and the listener never asks for it. -/
structure ExtractOptions.NeverCancels (options : ExtractOptions) : Prop where
  token : ∀ token, options.cancelToken = some token → token.cancelled = false ∧ ∀ look, token.setBy look = false
  listener : ∀ listener, options.onProgress = some listener → ∀ p fs, (listener p fs).2 = false

/-- Nothing has stopped the run so far. -/
structure RunState.IsCalm (s : RunState) : Prop where
  cancelled : s.cancelled = false
  stopped : s.stopped = false
  fatal : s.fatal = none

/-- A call that only looks at the run or counts. -/
def SessionCall.IsIdle : SessionCall → Prop
  | .file _ => False
  | .stop => False
  | .raise _ => False
  | _ => True

namespace RunState

theorem isCalm_start (hnever : options.NeverCancels) (fs : FileSystem) : (start fs options).IsCalm := by
  refine ⟨?_, rfl, rfl⟩
  show options.cancelToken.any (·.cancelled) = false
  cases htoken : options.cancelToken with
  | none => rfl
  | some token => exact (hnever.token token htoken).1

theorem lookAtToken_calm (hnever : options.NeverCancels) {s : RunState} (hcalm : s.IsCalm) :
    (s.lookAtToken options.cancelToken).1 = false ∧ (s.lookAtToken options.cancelToken).2.IsCalm := by
  cases htoken : options.cancelToken with
  | none => exact ⟨rfl, hcalm⟩
  | some token =>
    have hset := (hnever.token token htoken).2 s.looks
    have hlook : (s.cancelled || token.setBy s.looks) = false := by rw [hcalm.cancelled, hset]; rfl
    exact ⟨hlook, hlook, hcalm.stopped, hcalm.fatal⟩

/-- An idle call leaves the file system alone and the run calm. -/
theorem handler_idle (hquiet : options.IsQuiet) (hnever : options.NeverCancels) {c : SessionCall}
    (hc : c.IsIdle) {s : RunState} (hcalm : s.IsCalm) :
    (handler options c s).2.fs = s.fs ∧ (handler options c s).2.IsCalm := by
  cases c with
  | isCancelled => exact ⟨(s.fs_lookAtToken options.cancelToken).1, (lookAtToken_calm hnever hcalm).2⟩
  | announce p =>
    change (s.tell p options.onProgress).fs = s.fs ∧ (s.tell p options.onProgress).IsCalm
    cases hlistener : options.onProgress with
    | none => exact ⟨rfl, hcalm⟩
    | some listener =>
      refine ⟨hquiet listener hlistener p s.fs, ?_, hcalm.stopped, hcalm.fatal⟩
      show (s.cancelled || (listener p s.fs).2) = false
      rw [hcalm.cancelled, hnever.listener listener hlistener]
      rfl
  | isStopped => exact ⟨rfl, hcalm⟩
  | countEntry => exact ⟨rfl, hcalm.cancelled, hcalm.stopped, hcalm.fatal⟩
  | countBytes n => exact ⟨rfl, hcalm.cancelled, hcalm.stopped, hcalm.fatal⟩
  | file c => exact hc.elim
  | stop => exact hc.elim
  | raise e => exact hc.elim

end RunState

/-! ## The discipline -/

section InCalm

variable (D : Discipline (I := Files) FileSystem.answer κ) (hquiet : options.IsQuiet)
  (hnever : options.NeverCancels)

/-- A discipline for the file system, as one for the parts of a run that keep it calm. -/
def Discipline.inCalm : Discipline (RunState.handler options) κ where
  fit k s := D.fit k s.fs ∧ s.IsCalm
  rely k s s' := D.rely k s.fs s'.fs
  may k k' (c : SessionCall) s :=
    match c with
    | .file c => D.may k k' c s.fs
    | c => c.IsIdle ∧ k' = k
  apart := D.apart
  rely_refl := (D.inSession hquiet).rely_refl
  rely_trans := (D.inSession hquiet).rely_trans
  apart_symm := D.apart_symm
  spares {k k' l c s} hmay hfit hfit' hother hapart := by
    by_cases hc : c.IsIdle
    · have hfs := (RunState.handler_idle hquiet hnever hc hother.2).1
      obtain rfl : k' = k := by cases c <;> first | exact hc.elim | exact hmay.2
      refine ⟨?_, ⟨?_, hfit'.2⟩, hapart⟩
      · rw [hfs]
        exact D.rely_refl _ _
      · rw [hfs]
        exact hother.1
    · cases c with
      | file c =>
        obtain ⟨hrely, hfit, hapart⟩ := D.spares hmay hfit.1 hfit'.1 hother.1 hapart
        exact ⟨hrely, ⟨hfit, hfit'.2⟩, hapart⟩
      | stop => exact absurd hmay.1 hc
      | raise e => exact absurd hmay.1 hc
      | _ => exact absurd trivial hc

variable {D hquiet hnever}

theorem RunState.IsCalm.file {s : RunState} (hcalm : s.IsCalm) (c : FileCall) :
    (RunState.handler options (.file c) s).2.IsCalm :=
  ⟨hcalm.cancelled, hcalm.stopped, hcalm.fatal⟩

theorem Program.Obeys.onFilesCalm {p : Program Files α} {s : RunState} (hp : p.Obeys D post k s.fs) :
    (Session.onFiles p).Obeys (D.inCalm hquiet hnever) (fun a k s => post a k s.fs) k s := by
  induction p generalizing k s with
  | done a => exact hp
  | call c next ih =>
    intro s' hrely hfit
    obtain ⟨k', hmay, hfit', hnext⟩ := hp s'.fs hrely hfit.1
    exact ⟨k', hmay, ⟨hfit', hfit.2.file c⟩, ih _ hnext⟩

/-- A part that makes idle calls only. -/
def Program.IsIdle : Program Session α → Prop
  | .done _ => True
  | .call c next => SessionCall.IsIdle c ∧ ∀ r, (next r).IsIdle

theorem Program.IsIdle.obeys {p : Program Session α} {s : RunState} (hp : p.IsIdle) :
    p.Obeys (D.inCalm hquiet hnever) (fun _ k' _ => k' = k) k s := by
  induction p generalizing s with
  | done a => exact rfl
  | call c next ih =>
    intro t _ hfit
    obtain ⟨hfs, hcalm⟩ := RunState.handler_idle hquiet hnever hp.1 hfit.2
    refine ⟨k, ?_, ⟨?_, hcalm⟩, ih _ (hp.2 _)⟩
    · cases c <;> first | exact hp.1.elim | exact ⟨trivial, rfl⟩
    · rw [hfs]
      exact hfit.1

/-- Idle calls are harmless. -/
theorem harmless_of_isIdle {c : SessionCall} (hc : c.IsIdle) : (D.inCalm hquiet hnever).Harmless c := by
  intro k s hfit
  obtain ⟨hfs, hcalm⟩ := RunState.handler_idle hquiet hnever hc hfit.2
  refine ⟨?_, ⟨?_, hcalm⟩, ?_⟩
  · cases c <;> first | exact hc.elim | exact ⟨trivial, rfl⟩
  · rw [hfs]
    exact hfit.1
  · show D.rely k s.fs (RunState.handler options c s).2.fs
    rw [hfs]
    exact D.rely_refl _ _

/-- A calm run is not halted. -/
theorem says_isHalted : Session.isHalted.Says (D.inCalm hquiet hnever) false := by
  refine ⟨harmless_of_isIdle trivial, ?_⟩
  intro k s hfit
  have hstopped : (RunState.handler options .isStopped s).1 = false := hfit.2.stopped
  rw [hstopped]
  refine ⟨harmless_of_isIdle trivial, ?_⟩
  intro l t hfit'
  exact (RunState.lookAtToken_calm hnever hfit'.2).1

end InCalm

/-! ## Parts of a run that are alone -/

section Alone

variable {s : RunState}

theorem run_onFiles (options : ExtractOptions) (prog : Program Files α) (s : RunState) :
    ((Session.onFiles prog).run (RunState.handler options) s).1 = (prog.run FileSystem.answer s.fs).1 ∧
      ((Session.onFiles prog).run (RunState.handler options) s).2.fs = (prog.run FileSystem.answer s.fs).2 ∧
      (s.IsCalm → ((Session.onFiles prog).run (RunState.handler options) s).2.IsCalm) := by
  induction prog generalizing s with
  | done a => exact ⟨rfl, rfl, id⟩
  | call c next ih =>
    obtain ⟨hresult, hfs, hcalm⟩ := ih (s.fs.answer c).1 (RunState.handler options (.file c) s).2
    exact ⟨hresult, hfs, fun h => hcalm (h.file c)⟩

theorem Program.IsTacit.run_fs (hquiet : options.IsQuiet) {prog : Program Session α}
    (h : prog.IsTacit) (s : RunState) : (prog.run (RunState.handler options) s).2.fs = s.fs := by
  induction prog generalizing s with
  | done a => rfl
  | call c next ih =>
    exact (ih _ (h.2 _) _).trans (RunState.handler_tacit hquiet h.1 s).1

theorem Program.IsIdle.run_calm (hquiet : options.IsQuiet) (hnever : options.NeverCancels)
    {prog : Program Session α} (h : prog.IsIdle) (hcalm : s.IsCalm) :
    (prog.run (RunState.handler options) s).2.IsCalm := by
  induction prog generalizing s with
  | done a => exact hcalm
  | call c next ih => exact ih _ (h.2 _) (RunState.handler_idle hquiet hnever h.1 hcalm).2

theorem isIdle_isHalted : Session.isHalted.IsIdle := by
  refine ⟨trivial, ?_⟩
  intro (stopped : Bool)
  cases stopped with
  | true => trivial
  | false => exact ⟨trivial, fun _ => trivial⟩

/-- A calm run is not halted. -/
theorem run_isHalted (hnever : options.NeverCancels) (hcalm : s.IsCalm) :
    (Session.isHalted.run (RunState.handler options) s).1 = false := by
  have hstopped : s.stopped = false := hcalm.stopped
  show (Program.run (RunState.handler options)
    (if s.stopped then .done true else Session.isCancelled) s).1 = false
  rw [hstopped]
  exact (RunState.lookAtToken_calm hnever hcalm).1

end Alone

end TreeImage
