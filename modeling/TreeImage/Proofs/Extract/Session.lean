import TreeImage.Extract.Session
import TreeImage.Proofs.Program.Pool

set_option autoImplicit false

/-! # Disciplines of a run

A discipline for programs on the file system is one for the parts of a run as well (`inSession`): a run
changes the file system by its calls only, if its listener only listens. Parts that make no such call are
`Tacit`, and obey every discipline. -/

namespace TreeImage

variable {α β κ : Type} {options : ExtractOptions} {post : α → κ → FileSystem → Prop} {k : κ}

/-- Nobody but the run changes the file system: the listener hands it back as it was. -/
def ExtractOptions.IsQuiet (options : ExtractOptions) : Prop :=
  ∀ listener, options.onProgress = some listener → ∀ p fs, (listener p fs).1 = fs

/-! ## Calls -/

/-- A call that is none to the file system. -/
def SessionCall.IsTacit : SessionCall → Prop
  | .file _ => False
  | _ => True

theorem RunState.fs_lookAtToken (s : RunState) (token : Option CancelToken) :
    (s.lookAtToken token).2.fs = s.fs ∧ (s.lookAtToken token).2.trace = s.trace := by
  cases token <;> exact ⟨rfl, rfl⟩

/-- A call that is none to the file system leaves it alone; in the trace shows what the caller is told. -/
theorem RunState.handler_tacit (hquiet : options.IsQuiet) {c : SessionCall} (hc : c.IsTacit)
    (s : RunState) :
    (RunState.handler options c s).2.fs = s.fs ∧
      ((RunState.handler options c s).2.trace = s.trace ∨
        ∃ p, (RunState.handler options c s).2.trace = s.trace ++ [.told p]) := by
  cases c with
  | file c => exact hc.elim
  | isCancelled =>
    obtain ⟨hfs, htrace⟩ := s.fs_lookAtToken options.cancelToken
    exact ⟨hfs, .inl htrace⟩
  | announce p =>
    change (s.tell p options.onProgress).fs = s.fs ∧ ((s.tell p options.onProgress).trace = s.trace ∨
      ∃ p', (s.tell p options.onProgress).trace = s.trace ++ [.told p'])
    cases hlistener : options.onProgress with
    | none => exact ⟨rfl, .inl rfl⟩
    | some listener => exact ⟨hquiet listener hlistener p s.fs, .inr ⟨p, rfl⟩⟩
  | _ => exact ⟨rfl, .inl rfl⟩

/-! ## Disciplines -/

section InSession

variable (D : Discipline (I := Files) FileSystem.answer κ) (hquiet : options.IsQuiet)

/-- A discipline for the file system, as one for a run. Calls that are none to the file system are
    allowed with every claim. -/
def Discipline.inSession : Discipline (RunState.handler options) κ where
  fit k s := D.fit k s.fs
  rely k s s' := D.rely k s.fs s'.fs
  may k k' (c : SessionCall) s :=
    match c with
    | .file c => D.may k k' c s.fs
    | _ => k' = k
  apart := D.apart
  rely_refl _ _ := D.rely_refl _ _
  rely_trans := D.rely_trans
  apart_symm := D.apart_symm
  spares {k k' l c s} hmay hfit hfit' hfitl hapart := by
    by_cases hc : SessionCall.IsTacit c
    · have hfs := (RunState.handler_tacit hquiet hc s).1
      have hk : k' = k := by cases c <;> first | exact hc.elim | exact hmay
      rw [hfs, hk]
      exact ⟨D.rely_refl _ _, hfitl, hapart⟩
    · cases c with
      | file c => exact D.spares hmay hfit hfit' hfitl hapart
      | _ => exact absurd trivial hc

variable {D hquiet}

theorem Program.Obeys.onFiles {p : Program Files α} {s : RunState} (hp : p.Obeys D post k s.fs) :
    (Session.onFiles p).Obeys (D.inSession hquiet) (fun a k s => post a k s.fs) k s := by
  induction p generalizing k s with
  | done a => exact hp
  | call c next ih =>
    intro s' hrely hfit
    obtain ⟨k', hmay, hfit', hnext⟩ := hp s'.fs hrely hfit
    exact ⟨k', hmay, hfit', ih _ hnext⟩

/-- On the file system, the parts of a run do what the discipline allows and nothing else. -/
theorem Discipline.reach_of_inSession {s s' : RunState} (hreach : (D.inSession hquiet).Reach s s') :
    D.Reach s.fs s'.fs := by
  induction hreach with
  | refl => exact .refl
  | @tail t _ _ hstep ih =>
    obtain ⟨k, k', c, hmay, hfit, hfit', rfl⟩ := hstep
    by_cases hc : SessionCall.IsTacit c
    · rw [(RunState.handler_tacit hquiet hc t).1]
      exact ih
    · cases c with
      | file c => exact ih.tail ⟨k, k', c, hmay, hfit, hfit', rfl⟩
      | _ => exact absurd trivial hc

/-! ## Parts without calls to the file system -/

/-- A part of a run that does not ask anything of the file system. -/
def Program.IsTacit : Program Session α → Prop
  | .done _ => True
  | .call c next => SessionCall.IsTacit c ∧ ∀ r, (next r).IsTacit

theorem Program.IsTacit.bind {p : Program Session α} {f : α → Program Session β} (hp : p.IsTacit)
    (hf : ∀ a, (f a).IsTacit) : (p.bind f).IsTacit := by
  induction p with
  | done a => exact hf a
  | call c next ih => exact ⟨hp.1, fun r => ih r (hp.2 r)⟩

/-- Such a part obeys every discipline, and what it relied on is still the case. -/
theorem Program.IsTacit.obeys {p : Program Session α} {s : RunState} (hp : p.IsTacit) :
    p.Obeys (D.inSession hquiet) (fun _ k' s' => k' = k ∧ D.rely k s.fs s'.fs) k s := by
  suffices h : ∀ t : RunState, D.rely k s.fs t.fs →
      p.Obeys (D.inSession hquiet) (fun _ k' s' => k' = k ∧ D.rely k s.fs s'.fs) k t from
    h s (D.rely_refl _ _)
  induction p with
  | done a => exact fun t ht => ⟨rfl, ht⟩
  | call c next ih =>
    intro t ht t' hrely hfit
    have hfs := (RunState.handler_tacit hquiet hp.1 t').1
    refine ⟨k, ?_, ?_, ih _ (hp.2 _) _ ?_⟩
    · cases c <;> first | exact hp.1.elim | rfl
    · show D.fit k (RunState.handler options c t').2.fs
      rw [hfs]
      exact hfit
    · rw [hfs]
      exact D.rely_trans ht hrely

end InSession

theorem isTacit_isHalted : Session.isHalted.IsTacit := by
  refine ⟨trivial, ?_⟩
  intro (stopped : Bool)
  cases stopped with
  | true => trivial
  | false => exact ⟨trivial, fun _ => trivial⟩

end TreeImage
