import TreeImage.Proofs.Extract.Landing

set_option autoImplicit false

/-! # Runs that are cancelled in a callback

Whoever listens may cancel a run while being told of an entry. The trace shows when that was, and what the file system
was like then, if nobody but the run changes it (`FileSystem.leftBy`). A run with a token looks at it before it starts
with an entry, and tells of the entry when it is done with it. So it makes no more calls for entries once it was
cancelled (`RunState.Heeds`), and each entry that it did bring to its destination was told of by then (`ToldInTime`). -/

namespace TreeImage

variable {α β γ : Type} {options : ExtractOptions} {plan : RunPlan} {image : Image} {schedule : List Nat}
  {start fs : FileSystem} {s s' t : RunState} {p : Progress} {destination : Path} {path : String} {e : Entry}
  {failures : RunPlan.Failures} {slot slot' : Slot} {slots slots' rest pending : List Slot} {trace trace' : List Event}
  {results : List (Option Outcome)}

/-! ## Traces -/

/-- The file system that the calls of a trace lead to, if nobody else changes it. -/
def FileSystem.leftBy (fs : FileSystem) : List Event → FileSystem
  | [] => fs
  | .call c met :: rest => (met.answer c).2.leftBy rest
  | .told _ :: rest => fs.leftBy rest

theorem FileSystem.leftBy_append (fs : FileSystem) (trace trace' : List Event) :
    fs.leftBy (trace ++ trace') = (fs.leftBy trace).leftBy trace' := by
  induction trace generalizing fs with
  | nil => rfl
  | cons x rest ih => cases x <;> exact ih _

theorem FileSystem.leftBy_of_no_call (h : ∀ c met, .call c met ∉ trace) : fs.leftBy trace = fs := by
  induction trace with
  | nil => rfl
  | cons x rest ih =>
    cases x with
    | call c met => exact absurd List.mem_cons_self (h c met)
    | told p => exact ih fun c met hmem => h c met (List.mem_cons_of_mem _ hmem)

/-- What stands in a list with one more at its end is the last, or stood there before. -/
theorem append_singleton_eq_append_cons {xs before after : List γ} {x y : γ} (h : xs ++ [x] = before ++ y :: after) :
    (xs = before ∧ x = y ∧ after = []) ∨ ∃ after', after = after' ++ [x] ∧ xs = before ++ y :: after' := by
  rcases List.eq_nil_or_concat after with rfl | ⟨after', z, rfl⟩
  · obtain ⟨rfl, heq⟩ := List.append_inj' h rfl
    exact .inl ⟨rfl, List.singleton_inj.1 heq, rfl⟩
  · rw [List.concat_eq_append, ← List.cons_append, ← List.append_assoc] at h
    obtain ⟨rfl, heq⟩ := List.append_inj' h rfl
    exact .inr ⟨after', by rw [List.concat_eq_append, List.singleton_inj.1 heq], rfl⟩

/-- What stands in the first of two lists, and not in the second one, has all of the second behind it. -/
theorem exists_append_of_not_mem {xs ys before after : List γ} {x : γ} (h : xs ++ ys = before ++ x :: after) (hx : x ∉ ys) :
    ∃ after', xs = before ++ x :: after' ∧ after = after' ++ ys := by
  rcases List.append_eq_append_iff.1 h with ⟨middle, rfl, rfl⟩ | ⟨middle, rfl, heq⟩
  · exact absurd (List.mem_append_right _ List.mem_cons_self) hx
  · cases middle with
    | nil =>
      obtain rfl : x :: after = ys := heq
      exact absurd List.mem_cons_self hx
    | cons y middle =>
      obtain ⟨rfl, rfl⟩ := List.cons.inj heq
      exact ⟨middle, rfl, rfl⟩

/-- Who listens cancels the run when told of this progress, with the file system like this. -/
def ExtractOptions.CancelsAt (options : ExtractOptions) (p : Progress) (fs : FileSystem) : Prop :=
  ∃ listener, options.onProgress = some listener ∧ (listener p fs).2 = true

/-- In no callback of the trace the run was cancelled. -/
def Uncancelled (options : ExtractOptions) (start : FileSystem) (trace : List Event) : Prop :=
  ∀ before p after, trace = before ++ .told p :: after → ¬options.CancelsAt p (start.leftBy before)

theorem uncancelled_nil (options : ExtractOptions) (start : FileSystem) : Uncancelled options start [] :=
  fun _ _ _ h => absurd h.symm (List.append_ne_nil_of_right_ne_nil _ (List.cons_ne_nil _ _))

theorem Uncancelled.call (h : Uncancelled options start trace) (c : FileCall) (met : FileSystem) :
    Uncancelled options start (trace ++ [.call c met]) := by
  intro before p after htrace
  obtain ⟨-, heq, -⟩ | ⟨after', -, hbefore⟩ := append_singleton_eq_append_cons htrace
  · cases heq
  · exact h before p after' hbefore

theorem Uncancelled.told (h : Uncancelled options start trace) (hgoes : ¬options.CancelsAt p (start.leftBy trace)) :
    Uncancelled options start (trace ++ [.told p]) := by
  intro before q after htrace
  obtain ⟨rfl, heq, -⟩ | ⟨after', -, hbefore⟩ := append_singleton_eq_append_cons htrace
  · cases heq
    exact hgoes
  · exact h before q after' hbefore

/-- The entry was told of, and the run was not cancelled before that. -/
def ToldInTime (options : ExtractOptions) (start : FileSystem) (path : String) (trace : List Event) : Prop :=
  ∃ (before : List Event) (p : Progress) (after : List Event), trace = before ++ .told p :: after ∧ p.current = path ∧
    Uncancelled options start before

theorem ToldInTime.mono (h : ToldInTime options start path trace) (hlonger : trace <+: trace') :
    ToldInTime options start path trace' := by
  obtain ⟨before, p, after, rfl, hpath, hgoes⟩ := h
  obtain ⟨more, rfl⟩ := hlonger
  exact ⟨before, p, after ++ more, by rw [List.append_assoc, List.cons_append], hpath, hgoes⟩

/-- Of an entry that was told of in time, the caller knows when the run is cancelled. -/
theorem ToldInTime.told_by {before after : List Event} (h : ToldInTime options start path trace)
    (htrace : trace = before ++ .told p :: after) (hcancels : options.CancelsAt p (start.leftBy before)) :
    ∃ q, .told q ∈ before ++ [.told p] ∧ q.current = path := by
  obtain ⟨front, q, back, hsplit, hpath, hgoes⟩ := h
  refine ⟨q, ?_, hpath⟩
  rcases List.append_eq_append_iff.1 (htrace.symm.trans hsplit) with ⟨middle, rfl, heq⟩ | ⟨middle, rfl, heq⟩
  · cases middle with
    | nil =>
      cases heq
      exact List.mem_append_right _ (List.mem_singleton_self _)
    | cons x middle =>
      -- the run was cancelled before it told of this entry
      obtain ⟨rfl, -⟩ := List.cons.inj heq
      exact absurd hcancels (hgoes before p middle rfl)
  · cases middle with
    | nil =>
      cases heq
      exact List.mem_append_right _ (List.mem_singleton_self _)
    | cons x middle =>
      obtain ⟨rfl, -⟩ := List.cons.inj heq
      exact List.mem_append_left _ (List.mem_append_right _ List.mem_cons_self)

/-! ## States -/

/-- A run that heeds its token: the calls of the trace lead to its file system, it knows of every callback in which it
    was cancelled, and after that it made no more calls to the file system. -/
structure RunState.Heeds (options : ExtractOptions) (start : FileSystem) (s : RunState) : Prop where
  left : start.leftBy s.trace = s.fs
  cancelled : s.cancelled = false → Uncancelled options start s.trace
  still : ∀ before p after, s.trace = before ++ .told p :: after → options.CancelsAt p (start.leftBy before) →
    ∀ c met, .call c met ∉ after

theorem RunState.heeds_start (fs : FileSystem) (options : ExtractOptions) : (RunState.start fs options).Heeds options fs where
  left := rfl
  cancelled _ := uncancelled_nil options fs
  still before p after htrace hcancels := absurd hcancels (uncancelled_nil options fs before p after htrace)

/-- What does not show leaves it as it is. -/
theorem RunState.Heeds.of_same (h : s.Heeds options start) (hfs : t.fs = s.fs) (htrace : t.trace = s.trace)
    (hcancelled : t.cancelled = false → s.cancelled = false) : t.Heeds options start where
  left := by rw [htrace, hfs, h.left]
  cancelled hgoes := htrace ▸ h.cancelled (hcancelled hgoes)
  still := htrace ▸ h.still

/-- A call, where the run is not cancelled. -/
theorem RunState.Heeds.call (h : s.Heeds options start) (hgoes : s.cancelled = false) (c : FileCall) :
    (RunState.handler options (.file c) s).2.Heeds options start where
  left := by
    show start.leftBy (s.trace ++ [.call c s.fs]) = (s.fs.answer c).2
    rw [FileSystem.leftBy_append]
    rfl
  cancelled _ := (h.cancelled hgoes).call c s.fs
  still before p after htrace hcancels := absurd hcancels ((h.cancelled hgoes).call c s.fs before p after htrace)

/-- Telling of progress, where who listens leaves the file system alone. -/
theorem RunState.Heeds.tell (h : s.Heeds options start) (hquiet : options.IsQuiet) (p : Progress) :
    (s.tell p options.onProgress).Heeds options start := by
  cases hlistener : options.onProgress with
  | none => exact h
  | some listener =>
    have hfs : (s.tell p (some listener)).fs = s.fs := hquiet listener hlistener p s.fs
    refine ⟨?_, fun hgoes => ?_, fun before q after htrace hcancels c met hmem => ?_⟩
    · show start.leftBy (s.trace ++ [.told p]) = _
      rw [FileSystem.leftBy_append, h.left, hfs]
      rfl
    · obtain ⟨hbefore, hnow⟩ := Bool.or_eq_false_iff.1 hgoes
      refine (h.cancelled hbefore).told ?_
      rintro ⟨listener', hlistener', hcancels⟩
      rw [h.left, ← Option.some.inj (hlistener.symm.trans hlistener'), hnow] at hcancels
      cases hcancels
    · obtain ⟨-, -, rfl⟩ | ⟨after', rfl, hbefore⟩ := append_singleton_eq_append_cons htrace
      · cases hmem
      · rcases List.mem_append.1 hmem with hmem | hlast
        · exact h.still before q after' hbefore hcancels c met hmem
        · cases List.mem_singleton.1 hlast

/-- Whatever a run asks for, it heeds its token, if it makes no call to the file system after it was cancelled. -/
theorem RunState.Heeds.handler (h : s.Heeds options start) (hquiet : options.IsQuiet) {c : SessionCall}
    (hc : c.IsTacit ∨ s.cancelled = false) : (RunState.handler options c s).2.Heeds options start := by
  cases c with
  | file c => exact h.call (hc.resolve_left id) c
  | announce p => exact h.tell hquiet p
  | isCancelled =>
    obtain ⟨hfs, htrace⟩ := s.fs_lookAtToken options.cancelToken
    refine h.of_same hfs htrace fun hgoes => ?_
    by_contra hcancelled
    exact absurd (hgoes.symm.trans (s.cancelled_handler (Bool.not_eq_false _ ▸ hcancelled) .isCancelled)) nofun
  | _ => exact h.of_same rfl rfl id

/-! ## Parts of a run -/

/-- The discipline of a part of a run that is alone and may make any call: what counts is where it ends. -/
abbrev unbound (options : ExtractOptions) : Discipline (RunState.handler options) Unit := .alone _ fun _ _ => True

theorem Program.Obeys.ends {prog : Program Session α} {post : α → Unit → RunState → Prop}
    (h : prog.Obeys (unbound options) post () s) {a : α} (hrun : prog.run (RunState.handler options) s = (a, s')) :
    post a () s' := by
  obtain ⟨⟨⟩, hpost, -⟩ := h.run trivial
  rwa [hrun] at hpost

/-- Nothing is taken back in a trace. -/
theorem Program.Obeys.extends {prog : Program Session α} {post : α → Unit → RunState → Prop}
    (h : prog.Obeys (unbound options) post () s) :
    prog.Obeys (unbound options) (fun a k t => post a k t ∧ s.trace <+: t.trace) () s := by
  induction prog generalizing s with
  | done a => exact ⟨h, List.prefix_rfl⟩
  | call c next ih =>
    obtain ⟨⟨⟩, -, -, hnext⟩ := h s rfl trivial
    obtain ⟨events, htrace, -⟩ := RunState.exists_events_handler options c s
    refine Program.obeys_alone_call trivial ((ih _ hnext).imp fun a k t hend => ⟨hend.1, ?_⟩)
    exact List.IsPrefix.trans ⟨events, htrace.symm⟩ hend.2

/-- A call that neither looks whether the run was cancelled nor tells the caller anything. -/
def SessionCall.IsPlain : SessionCall → Prop
  | .isCancelled => False
  | .announce _ => False
  | _ => True

/-- A part of a run in which nobody can cancel it. -/
def Program.IsPlain : Program Session α → Prop
  | .done _ => True
  | .call c next => SessionCall.IsPlain c ∧ ∀ r, (next r).IsPlain

theorem Program.IsPlain.bind {prog : Program Session α} {f : α → Program Session β} (h : prog.IsPlain)
    (hf : ∀ a, (f a).IsPlain) : (prog.bind f).IsPlain := by
  induction prog with
  | done a => exact hf a
  | call c next ih => exact ⟨h.1, fun r => ih r (h.2 r)⟩

theorem isPlain_onFiles (prog : Program Files α) : (Session.onFiles prog).IsPlain := by
  induction prog with
  | done a => trivial
  | call c next ih => exact ⟨trivial, ih⟩

theorem isPlain_fileFailed (plan : RunPlan) (err : ExtractError) : (plan.fileFailed err).IsPlain := by
  rw [RunPlan.fileFailed]
  split
  · exact ⟨trivial, fun _ => ⟨trivial, fun _ => trivial⟩⟩
  · split
    · exact ⟨trivial, fun _ => trivial⟩
    · trivial

theorem isPlain_placeDirectory (plan : RunPlan) (failures : RunPlan.Failures) (destination : Path) (e : Entry) :
    (plan.placeDirectory failures destination e).IsPlain := by
  rw [RunPlan.placeDirectory]
  split
  · trivial
  · refine (isPlain_onFiles _).bind ?_
    rintro (err | ⟨⟩ | ⟨⟩)
    · show Program.IsPlain (if _ then _ else _)
      split
      · trivial
      · cases plan.options.stopOnFirstError with
        | true => exact ⟨trivial, fun _ => trivial⟩
        | false => trivial
    · trivial
    · trivial

/-- In its trace there are calls to the file system and nothing else, and the run goes on as it did. -/
theorem Program.IsPlain.run_trace {prog : Program Session α} (h : prog.IsPlain) (options : ExtractOptions) (s : RunState) :
    (∃ events, (prog.run (RunState.handler options) s).2.trace = s.trace ++ events ∧ ∀ p, .told p ∉ events) ∧
      (prog.run (RunState.handler options) s).2.cancelled = s.cancelled := by
  induction prog generalizing s with
  | done a => exact ⟨⟨[], (List.append_nil _).symm, nofun⟩, rfl⟩
  | call c next ih =>
    obtain ⟨hplain, hnext⟩ := h
    obtain ⟨⟨events, htrace, htold⟩, hcancelled⟩ := ih _ (hnext (RunState.handler options c s).1) (RunState.handler options c s).2
    rw [Program.run_call, htrace, hcancelled]
    cases c with
    | file c =>
      refine ⟨⟨.call c s.fs :: events, List.append_assoc _ _ _, fun p hp => ?_⟩, rfl⟩
      rcases List.mem_cons.1 hp with heq | hp
      · cases heq
      · exact htold p hp
    | isCancelled => exact hplain.elim
    | announce p => exact hplain.elim
    | _ => exact ⟨⟨events, rfl, htold⟩, rfl⟩

section Parts

variable (hquiet : options.IsQuiet)

include hquiet

theorem Program.IsTacit.heeds {prog : Program Session α} (h : prog.IsTacit) (hs : s.Heeds options start) :
    prog.Obeys (unbound options) (fun _ _ t => t.Heeds options start) () s := by
  induction prog generalizing s with
  | done a => exact hs
  | call c next ih => exact Program.obeys_alone_call trivial (ih _ (h.2 _) (hs.handler hquiet (.inl h.1)))

theorem Program.IsPlain.heeds {prog : Program Session α} (h : prog.IsPlain) (hs : s.Heeds options start)
    (hgoes : s.cancelled = false) :
    prog.Obeys (unbound options) (fun _ _ t => t.Heeds options start ∧ t.cancelled = false) () s := by
  induction prog generalizing s with
  | done a => exact ⟨hs, hgoes⟩
  | call c next ih =>
    refine Program.obeys_alone_call trivial (ih _ (h.2 _) (hs.handler hquiet (.inr hgoes)) ?_)
    have hplain := h.1
    cases c <;> first | exact hplain.elim | exact hgoes

/-- A run with a token finds out whether it was cancelled. -/
theorem isCancelled_heeds (htoken : options.cancelToken.isSome = true) (hs : s.Heeds options start) :
    Session.isCancelled.Obeys (unbound options)
      (fun found _ t => t.Heeds options start ∧ t.trace = s.trace ∧ t.cancelled = found) () s := by
  obtain ⟨token, htoken⟩ := Option.isSome_iff_exists.1 htoken
  refine Program.obeys_alone_call trivial ⟨hs.handler hquiet (c := .isCancelled) (.inl trivial), ?_⟩
  show (s.lookAtToken options.cancelToken).2.trace = s.trace ∧
    (s.lookAtToken options.cancelToken).2.cancelled = (s.lookAtToken options.cancelToken).1
  rw [htoken]
  exact ⟨rfl, rfl⟩

/-- So where it finds itself going on, it was not. -/
theorem isHalted_heeds (htoken : options.cancelToken.isSome = true) (hs : s.Heeds options start) :
    Session.isHalted.Obeys (unbound options)
      (fun halted _ t => t.Heeds options start ∧ (halted = false → t.cancelled = false)) () s := by
  refine Program.obeys_alone_call trivial ?_
  change (if s.stopped then .done true else Session.isCancelled : Program Session Bool).Obeys _ _ _ s
  split
  · exact ⟨hs, nofun⟩
  · refine (isCancelled_heeds hquiet htoken hs).imp ?_
    rintro found ⟨⟩ t ⟨ht, -, rfl⟩
    exact ⟨ht, id⟩

/-- Nobody is told anything before the passes. -/
theorem prepare_heeds (htoken : options.cancelToken.isSome = true) (cwd executable : Path) (image : Image)
    (target : Option Path) (fs : FileSystem) : (prepare options cwd executable image target).Obeys (unbound options)
      (fun _ _ t => t.Heeds options fs ∧ Uncancelled options fs t.trace) () (.start fs options) := by
  unfold prepare
  refine (isCancelled_heeds hquiet htoken (RunState.heeds_start fs options)).bind ?_
  rintro found ⟨⟩ t ⟨ht, htrace, hfound⟩
  cases found with
  | true => exact ⟨ht, htrace ▸ uncancelled_nil options fs⟩
  | false =>
    refine (Program.IsPlain.heeds hquiet ?_ ht hfound).imp fun _ _ u hu => ⟨hu.1, hu.1.cancelled hu.2⟩
    simp only [Bool.false_eq_true, if_false]
    split
    · trivial
    · split
      · trivial
      · exact (isPlain_onFiles _).bind fun result => by cases result <;> trivial

variable {listener : ProgressListener} (hlistener : options.onProgress = some listener)

include hlistener

/-- An entry that was dealt with before the run was cancelled is told of in time. -/
theorem entryDone_heeds (hs : s.Heeds options start) (hgoes : s.cancelled = false) (path : String) (written : Nat) :
    (plan.entryDone path written).Obeys (unbound options)
      (fun _ _ t => t.Heeds options start ∧ ToldInTime options start path t.trace) () s := by
  refine Program.obeys_alone_call trivial (Program.obeys_alone_call trivial (Program.obeys_alone_call trivial ⟨?_, ?_⟩))
  · have hcounted := hs.handler hquiet (c := .countEntry) (.inl trivial)
    exact (hcounted.handler hquiet (c := .countBytes written) (.inl trivial)).tell hquiet _
  · refine ⟨s.trace, ⟨plan.rejected + (s.entriesDone + 1), plan.entriesTotal, s.bytesWritten + written, plan.bytesTotal, path⟩,
      [], ?_, rfl, hs.cancelled hgoes⟩
    show (RunState.tell _ _ options.onProgress).trace = _
    rw [hlistener]
    rfl

theorem placeFile_heeds (hs : s.Heeds options start) (hgoes : s.cancelled = false) :
    (plan.placeFile image destination e).Obeys (unbound options)
      (fun _ _ t => t.Heeds options start ∧ ToldInTime options start e.path t.trace) () s := by
  have hend : ∀ {t : RunState} (o : Outcome), t.Heeds options start → t.cancelled = false → (do
      plan.entryDone e.path (if o.isWritten then (image.content e).length else 0)
      return o : Program Session Outcome).Obeys (unbound options)
        (fun _ _ t => t.Heeds options start ∧ ToldInTime options start e.path t.trace) () t :=
    fun o ht hgoes => (entryDone_heeds hquiet hlistener ht hgoes _ _).bind fun _ _ _ hu => hu
  unfold RunPlan.placeFile
  refine ((isPlain_onFiles _).heeds hquiet hs hgoes).bind ?_
  rintro (err | o) ⟨⟩ t ⟨ht, hgoes⟩
  · refine ((isPlain_fileFailed plan err).heeds hquiet ht hgoes).bind ?_
    rintro o ⟨⟩ u ⟨hu, hgoes⟩
    exact hend o hu hgoes
  · exact hend o ht hgoes

/-! ## The passes -/

omit hquiet hlistener in
/-- The slot is as it was, or its entry was told of in time. -/
def Slot.SettledInTime (options : ExtractOptions) (start : FileSystem) (trace : List Event) (slot slot' : Slot) : Prop :=
  slot' = slot ∨ ToldInTime options start slot'.entry.path trace

/-- What holds when the directory pass ends. It ends in an error only where it looked before. -/
def PassHeeds (options : ExtractOptions) (start : FileSystem) (slots : List Slot)
    (result : Except ExtractError (RunPlan.Failures × List Slot)) (t : RunState) : Prop :=
  t.Heeds options start ∧ (∀ err, result = .error err → t.cancelled = false) ∧
    ∀ failures slots', result = .ok (failures, slots') → List.Forall₂ (Slot.SettledInTime options start t.trace) slots slots'

omit hquiet hlistener in
theorem keep_heeds (h : (plan.directoryPass failures rest).Obeys (unbound options)
      (fun result _ t => PassHeeds options start rest result t) () s)
    (hslot : slot.SettledInTime options start s.trace slot') :
    Program.Obeys (unbound options) (fun result _ t => PassHeeds options start (slot :: rest) result t)
      (do return (← plan.directoryPass failures rest).map fun (failures, slots) => (failures, slot' :: slots)) () s := by
  refine h.extends.bind ?_
  rintro (err | ⟨failures', rest'⟩) ⟨⟩ t ⟨⟨ht, herror, hok⟩, hlonger⟩
  · exact ⟨ht, fun _ _ => herror err rfl, nofun⟩
  · refine ⟨ht, nofun, ?_⟩
    rintro _ _ ⟨⟩
    exact .cons (hslot.imp_right (·.mono hlonger)) (hok _ _ rfl)

variable (htoken : options.cancelToken.isSome = true)

include htoken

theorem directoryPass_heeds (hs : s.Heeds options start) : (plan.directoryPass failures slots).Obeys (unbound options)
    (fun result _ t => PassHeeds options start slots result t) () s := by
  induction slots generalizing failures s with
  | nil =>
    refine ⟨hs, ?_, ?_⟩
    · rintro _ ⟨⟩
    · rintro _ _ ⟨⟩
      exact .nil
  | cons slot rest ih =>
    rw [RunPlan.directoryPass]
    split
    · exact keep_heeds (ih hs) (.inl rfl)
    · split
      · exact keep_heeds (ih hs) (.inl rfl)
      · refine (isHalted_heeds hquiet htoken hs).bind ?_
        rintro halted ⟨⟩ t ⟨ht, hgoes⟩
        cases halted with
        | true =>
          refine ⟨ht, ?_, ?_⟩
          · rintro _ ⟨⟩
          · rintro _ _ ⟨⟩
            exact List.forall₂_same.2 fun _ _ => .inl rfl
        | false =>
          simp only [Bool.false_eq_true, if_false]
          split
          · exact keep_heeds (ih ht) (.inl rfl)
          · refine ((isPlain_placeDirectory ..).heeds hquiet ht (hgoes rfl)).bind ?_
            rintro (err | ⟨o, made⟩) ⟨⟩ u ⟨hu, hgoes⟩
            · refine ⟨hu, fun _ _ => hgoes, ?_⟩
              rintro _ _ ⟨⟩
            · refine (entryDone_heeds hquiet hlistener hu hgoes _ _).bind ?_
              rintro ⟨⟩ ⟨⟩ v ⟨hv, htold⟩
              exact keep_heeds (ih hv) (.inr htold)

omit hquiet hlistener htoken in
theorem isTacit_blockFiles (plan : RunPlan) (failures : RunPlan.Failures) (slots : List Slot) :
    (plan.blockFiles failures slots).IsTacit := by
  induction slots with
  | nil => trivial
  | cons slot rest ih =>
    rw [RunPlan.blockFiles]
    split
    · exact ih.bind fun _ => trivial
    · exact (isTacit_entryDone plan _ _).bind fun _ => ih.bind fun _ => trivial

/-- In a pool of one worker, all files that have a result were told of in time. -/
theorem files_heed (hplan : plan.options = options) (hone : options.workers ≤ 1)
    (hpending : ∀ slot ∈ pending, slot.destination ≠ none) (hs : s.Heeds options start)
    (h : plan.files schedule image pending s = (results, s')) : s'.Heeds options start ∧
      ∀ (i : Nat) (slot : Slot) (o : Outcome), pending[i]? = some slot → results[i]?.join = some o →
        ToldInTime options start slot.entry.path s'.trace := by
  subst hplan
  have hkept : KeptInOrder (RunState.handler plan.options) Session.isHalted (plan.fileJob image pending) pending.length
      fun os t => t.Heeds plan.options start ∧ ∀ (i : Nat) (slot : Slot), pending[i]? = some slot → i < os.length →
        ToldInTime plan.options start slot.entry.path t.trace := by
    constructor
    · rintro os t ⟨ht, htold⟩
      obtain ⟨⟨ht', -⟩, hlonger⟩ := (isHalted_heeds hquiet htoken ht).extends.ends (Prod.eta _).symm
      exact ⟨ht', fun i slot hslot hi => (htold i slot hslot hi).mono hlonger⟩
    · rintro os t ⟨ht, htold⟩ hlt ⟨u, hlook⟩
      have hgoes : t.cancelled = false := by
        rw [Bool.eq_false_iff]
        exact fun hcancelled => Bool.false_ne_true ((run_isHalted_iff hlook).1.1 (.inr ⟨htoken, hcancelled⟩))
      have hslot : pending[os.length]? = some pending[os.length] := List.getElem?_eq_getElem hlt
      obtain ⟨p, hp⟩ := Option.ne_none_iff_exists'.1 (hpending _ (List.getElem_mem hlt))
      rw [fileJob_eq hslot hp]
      obtain ⟨⟨ht', htold'⟩, hlonger⟩ := (placeFile_heeds hquiet hlistener ht hgoes).extends.ends (Prod.eta _).symm
      refine ⟨ht', fun i slot hi hlt' => ?_⟩
      rw [List.length_append, List.length_singleton] at hlt'
      rcases Nat.lt_succ_iff_lt_or_eq.1 hlt' with hbefore | rfl
      · exact (htold i slot hi hbefore).mono hlonger
      · obtain rfl := Option.some.inj (hi.symm.trans hslot)
        exact htold'
  obtain ⟨os, ⟨hheeds, htold⟩, -, hresults, -⟩ := runBounded_in_order hkept schedule hone (s := s)
    ⟨hs, fun _ _ _ hi => absurd hi (Nat.not_lt_zero _)⟩
  rw [RunPlan.files] at h
  rw [h] at hheeds htold hresults
  refine ⟨hheeds, fun i slot o hslot ho => htold i slot hslot ?_⟩
  obtain rfl : results = _ := hresults
  exact (List.getElem?_eq_some_iff.1 (join_range_map ho)).1

/-- Up to its last pass, a run heeds its token, and what it settled then was told of in time. -/
theorem Passage.heeds (c : Passage options plan schedule image slots s) (hplan : plan.options = options)
    (hone : options.workers ≤ 1) (hs : s.Heeds options start) : c.afterFiles.Heeds options start ∧
      List.Forall₂ (Slot.SettledInTime options start c.afterFiles.trace) slots c.placed ∧
      ∀ (i : Nat) (slot : Slot) (o : Outcome), (c.waiting.filter (·.isPending))[i]? = some slot →
        c.results[i]?.join = some o → ToldInTime options start slot.entry.path c.afterFiles.trace := by
  obtain ⟨hpass, -, hplaced⟩ := (directoryPass_heeds hquiet hlistener htoken hs).ends c.pass
  obtain ⟨hblock, hblocked⟩ := ((isTacit_blockFiles ..).heeds hquiet hpass).extends.ends c.block
  obtain ⟨hfiles, htold⟩ := files_heed hquiet hlistener htoken hplan hone (fun _ hslot => destination_of_pending hslot)
    hblock c.files
  refine ⟨hfiles, (hplaced _ _ rfl).imp fun _ _ hslot => hslot.imp_right (·.mono (hblocked.trans ?_)), htold⟩
  obtain ⟨looks, jobs, log, hrun⟩ := exists_filesRun hplan c.files
  obtain ⟨events, htrace, -⟩ := hrun.leads.exists_events
  exact ⟨events, htrace.symm⟩

end Parts

end TreeImage
