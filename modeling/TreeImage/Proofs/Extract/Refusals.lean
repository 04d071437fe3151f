import TreeImage.Proofs.Extract.Failing
import TreeImage.Proofs.Extract.Preparation
import TreeImage.Proofs.Extract.Selection

set_option autoImplicit false

/-! # Runs that are refused

Bytes that are no image, a run that was cancelled before it started, a root that is none, an unsafe path under the
strict policy and a target that is no directory are told before anything is touched (`ExtractError.isRefusal`).
All other errors come later, and are none of these. -/

namespace TreeImage

open FileSystem

variable {α : Type} {fs fs' : FileSystem} {root p : Path} {entry : String} {e : Entry} {entries : List Entry}
  {err : ExtractError} {failures : RunPlan.Failures} {slots : List Slot} {plan : RunPlan}
  {options : ExtractOptions} {image : Image} {s s' : RunState}

/-- The error is told before anything is touched. -/
def ExtractError.isRefusal : ExtractError → Bool
  | format _ => true
  | unsafePath _ _ => true
  | invalidRoot _ _ => true
  | targetNotDirectory _ => true
  | cancelled => true
  | _ => false

/-! ## The passes refuse nothing -/

theorem ExtractError.isRefusal_of_isOfEntry (h : err.isOfEntry = true) : err.isRefusal = false := by
  cases err <;> first | rfl | cases h

theorem execute_unrefused (schedule : List Nat) (h : plan.execute schedule image slots s = (.error err, s')) :
    err.isRefusal = false := by
  have hdirectories : (plan.directories slots).Learns (RunState.handler plan.options) (fun _ => True) FailsAsEntry := by
    refine directoryPass_fails.bind ?_
    rintro (err | ⟨failures, slots⟩) hpassed
    · exact failsBy_error.2 (failsBy_error.1 hpassed)
    · exact (Program.learns_true _).bind fun _ _ => failsBy_ok _
  rw [RunPlan.execute] at h
  split at h
  · next hrun =>
    cases h
    exact ExtractError.isRefusal_of_isOfEntry (hdirectories.run s err (by rw [hrun]))
  · simp only at h
    split at h
    · cases h
      rfl
    · cases h

/-! ## Before the passes -/

/-- A strict run is refused for the first path that is not accepted. -/
theorem slotsFor_first_unsafe (h : ∃ e ∈ entries, ∃ err, sanitize root e.path = .error err) :
    ∃ before e after fault, entries = before ++ e :: after ∧ (∀ e' ∈ before, ∃ p, sanitize root e'.path = .ok p) ∧
      sanitize root e.path = .error (.unsafePath e.path fault) ∧
      slotsFor root true entries = .error (.unsafePath e.path fault) := by
  induction entries with
  | nil =>
    obtain ⟨e, he, -⟩ := h
    exact absurd he List.not_mem_nil
  | cons e rest ih =>
    cases hsanitize : sanitize root e.path with
    | error err =>
      obtain ⟨fault, rfl⟩ := sanitize_eq_error hsanitize
      refine ⟨[], e, rest, fault, rfl, nofun, hsanitize, ?_⟩
      simp only [slotsFor, hsanitize, if_true]
    | ok p =>
      have hrest : ∃ e ∈ rest, ∃ err, sanitize root e.path = .error err := by
        obtain ⟨e', he', err, herr⟩ := h
        rcases List.mem_cons.1 he' with rfl | he'
        · cases hsanitize.symm.trans herr
        · exact ⟨e', he', err, herr⟩
      obtain ⟨before, e', after, fault, rfl, hbefore, herror, hslots⟩ := ih hrest
      refine ⟨e :: before, e', after, fault, rfl, List.forall_mem_cons.2 ⟨⟨p, hsanitize⟩, hbefore⟩, herror, ?_⟩
      simp only [slotsFor, hsanitize]
      rw [hslots]
      rfl

/-- The root is refused for what stands there, and then nothing was made. -/
theorem run_prepareRoot_refused (h : (prepareRoot root).run answer fs = (.error err, fs'))
    (hrefused : err.isRefusal = true) : fs' = fs := by
  have hsettle : ∀ fs, (do return (← Files.realPath root).mapError (.target root) :
      Program Files (Except ExtractError Path)).run answer fs = (.error err, fs') → False := by
    intro fs h
    replace h := (run_ask (.realPath root) rfl _).symm.trans h
    cases hreal : fs.realPath root with
    | ok real =>
      rw [hreal] at h
      cases h
    | error refusal =>
      rw [hreal] at h
      cases h
      cases hrefused
  rw [prepareRoot] at h
  replace h := (run_ask (.inspect true root) rfl _).symm.trans h
  cases hinspect : fs.inspect true root with
  | ok info =>
    rw [hinspect] at h
    change Program.run _ (if info.isDirectory then _ else _) _ = _ at h
    split at h
    · exact (hsettle fs h).elim
    · cases h
      rfl
  | error refusal =>
    rw [hinspect] at h
    cases refusal with
    | notFound =>
      replace h := (Program.run_bind _ _ _ _).symm.trans h
      cases hmade : (makeDirectories root.normalNames).run answer fs with
      | mk result fs₁ =>
        rw [hmade] at h
        cases result with
        | error refusal =>
          cases h
          cases hrefused
        | ok _ => exact (hsettle fs₁ h).elim
    | _ =>
      cases h
      cases hrefused

variable {cwd executable : Path} {target : Option Path}

theorem run_prepare_refused
    (h : (prepare options cwd executable image target).run (RunState.handler options) s = (.error err, s'))
    (hrefused : err.isRefusal = true) : s'.fs = s.fs := by
  obtain ⟨hfs, -⟩ | ⟨root, slots, _ | realRoot, -, -, hprepare, heq⟩ := run_prepare_cases h
  · exact hfs
  · cases heq
    exact run_prepareRoot_refused hprepare hrefused
  · cases heq

/-- A run whose strict check of paths fails ends there. -/
theorem run_prepare_unsafe (hgoes : (s.lookAtToken options.cancelToken).1 = false)
    (hroot : resolveRoot cwd executable options.defaultRoot target = .ok root)
    (hslots : slotsFor root options.strict (image.manifest.select options.filter) = .error err) :
    (prepare options cwd executable image target).run (RunState.handler options) s =
      (.error err, (s.lookAtToken options.cancelToken).2) := by
  rw [prepare]
  refine (Program.run_bind _ _ _ _).trans ?_
  change Program.run _ (if (s.lookAtToken options.cancelToken).1 then _ else _)
    (s.lookAtToken options.cancelToken).2 = _
  rw [hgoes, if_neg Bool.false_ne_true, hroot]
  simp only [hslots]
  rfl

/-! ## Whole runs -/

/-- A run that is refused leaves the file system as it was. -/
theorem extract_refused (schedule : List Nat) (h : extract options schedule image target s = (.error err, s'))
    (hrefused : err.isRefusal = true) : s'.fs = s.fs := by
  rw [extract] at h
  split at h
  · next hprepare =>
    cases h
    exact run_prepare_refused hprepare hrefused
  · rw [execute_unrefused schedule h] at hrefused
    cases hrefused

/-- **Nothing is touched by a run that is refused.** A run of any bytes that ends in a refusal leaves the file system
    exactly as it was. A strict run that is not cancelled at its start and has a root is refused for the first
    selected entry, in the order of the manifest, whose path is not accepted. -/
theorem extractBytes_refuses (options : ExtractOptions) (schedule : List Nat) (bytes : Bytes) (target : Option Path)
    (fs : FileSystem) :
    (∀ err s, extractBytes options schedule bytes target (.start fs options) = (.error err, s) →
      err.isRefusal = true → s.fs = fs) ∧
    ∀ image root, Image.parse bytes = .ok image →
      ((RunState.start fs options).lookAtToken options.cancelToken).1 = false →
      resolveRoot fs.cwd.toPath fs.executable options.defaultRoot target = .ok root → options.strict = true →
      (∃ e, image.manifest.Selects options e ∧ ∃ err, sanitize root e.path = .error err) →
      ∃ before e after fault s, image.manifest.entries = before ++ e :: after ∧ image.manifest.Selects options e ∧
        sanitize root e.path = .error (.unsafePath e.path fault) ∧
        (∀ e' ∈ before, image.manifest.Selects options e' → ∃ p, sanitize root e'.path = .ok p) ∧
        extractBytes options schedule bytes target (.start fs options) = (.error (.unsafePath e.path fault), s) ∧
        s.fs = fs := by
  constructor
  · intro err s h hrefused
    rw [extractBytes] at h
    split at h
    · cases h
      rfl
    · exact extract_refused schedule h hrefused
  · intro image root hparse hgoes hroot hstrict hfault
    have hselect : ∀ e, e ∈ image.manifest.select options.filter ↔ image.manifest.Selects options e :=
      fun e => image.mem_select_iff hparse
    obtain ⟨before, e, after, fault, heq, hbefore, herror, hslots⟩ :=
      slotsFor_first_unsafe (hfault.imp fun e he => ⟨(hselect e).2 he.1, he.2⟩)
    -- the entries in between are not selected
    obtain ⟨keep, hkeep⟩ := image.manifest.select_eq_filter options.filter
    obtain ⟨front, back, hentries, hfront, hback⟩ := List.filter_eq_append_iff.1 (hkeep.symm.trans heq)
    obtain ⟨skipped, back', rfl, hskipped, -, -⟩ := List.filter_eq_cons_iff.1 hback
    rw [← hstrict] at hslots
    have hprepare : (prepare options (RunState.start fs options).fs.cwd.toPath
        (RunState.start fs options).fs.executable image target).run (RunState.handler options) (.start fs options) = _ :=
      run_prepare_unsafe hgoes hroot hslots
    refine ⟨front ++ skipped, e, back', fault, ((RunState.start fs options).lookAtToken options.cancelToken).2,
      by rw [hentries, List.append_assoc], ?_, herror, ?_, ?_, (RunState.fs_lookAtToken _ _).1⟩
    · exact (hselect e).1 (heq ▸ List.mem_append_right _ List.mem_cons_self)
    · intro e' he' hselects
      have hkept : keep e' = true := (List.mem_filter.1 (hkeep ▸ (hselect e').2 hselects)).2
      rcases List.mem_append.1 he' with hin | hin
      · exact hbefore e' (hfront ▸ List.mem_filter.2 ⟨hin, hkept⟩)
      · exact absurd hkept (hskipped e' hin)
    · rw [extractBytes, hparse]
      simp only [extract, hprepare]

/-- Of two paths with a backslash the filter lets the second through, and the run is refused for that one. -/
theorem extractBytes_refuses_backslash :
    let e : Entry := .file "c\\d" 0 0 (.of []) none
    let options : ExtractOptions := { filter := some (·.path != "a\\b") }
    let image : Image := .written ⟨[.file "a\\b" 0 0 (.of []) none, e]⟩ []
    let fs : FileSystem := ⟨[([], .directory 0o755)], [], .ofString "/bin/unpack"⟩
    (Image.parse image.source = .ok image ∧ ((RunState.start fs options).lookAtToken options.cancelToken).1 = false ∧
      resolveRoot fs.cwd.toPath fs.executable options.defaultRoot (some (.ofString "/out")) = .ok (.ofString "/out") ∧
      options.strict = true ∧ image.manifest.Selects options e ∧
      ∃ err, sanitize (.ofString "/out") e.path = .error err) ∧
    ∃ err s, extractBytes options [] image.source (some (.ofString "/out")) (.start fs options) = (.error err, s) ∧
      err.isRefusal = true ∧ s.fs = fs := by
  intro e options image fs
  have hvalid : ∀ d d' : Digest, Manifest.validate ⟨[.file "a\\b" 0 0 d none, .file "c\\d" 0 0 d' none]⟩ 0 = .ok () := by
    intro d d'
    cbv
  have hparse : Image.parse image.source = .ok image :=
    Image.parse_written (by decide) (by decide) (hvalid _ _) (by decide)
  have hroot : resolveRoot fs.cwd.toPath fs.executable options.defaultRoot (some (.ofString "/out")) =
      .ok (.ofString "/out") := by decide
  have hselects : image.manifest.Selects options e :=
    ⟨List.mem_cons_of_mem _ (List.mem_singleton_self e), .inl (by decide)⟩
  have hfault : ∃ err, sanitize (.ofString "/out") e.path = .error err := ⟨.unsafePath "c\\d" .backslash, by decide⟩
  obtain ⟨hrefused, hfirst⟩ := extractBytes_refuses options [] image.source (some (.ofString "/out")) fs
  obtain ⟨_, e', _, fault, s, -, -, -, -, hrun, -⟩ := hfirst image _ hparse rfl hroot rfl ⟨e, hselects, hfault⟩
  exact ⟨⟨hparse, rfl, hroot, rfl, hselects, hfault⟩, _, s, hrun, rfl, hrefused _ s hrun rfl⟩

end TreeImage
