import TreeImage.Extract.Run
import TreeImage.Proofs.Extract.Session
import TreeImage.Proofs.Program.Dialogue
import TreeImage.Proofs.Program.Learning

set_option autoImplicit false

/-! # The ledger of a run

Beside the file system, a run keeps account of three things: whether it is to stop, how many bytes were written,
and what was fatal. A few calls enter something there (`mark?`), and all others leave it alone, so the ledger at the
end is what the marks in the dialogue make of it (`Handler.Leads.ledger`). A part of a run that looks before it starts
with an entry finds it halted if it was stopped, or cancelled by a token, and it stays so (`RunState.Halts`). -/

namespace TreeImage

variable {options : ExtractOptions} {plan : RunPlan} {image : Image} {s s' : RunState} {log : List (Exchange Session)}
  {e : Entry} {p : Path} {o : Outcome} {made : Bool} {α : Type}

/-! ## Marks -/

/-- What a call enters in the ledger. -/
inductive Mark
  | stop
  | raise (e : ExtractError)
  | wrote (n : Nat)

/-- The mark of an exchange, if it leaves one. -/
def mark? : Exchange Session → Option Mark
  | ⟨.stop, _⟩ => some .stop
  | ⟨.raise e, _⟩ => some (.raise e)
  | ⟨.countBytes n, _⟩ => some (.wrote n)
  | _ => none

/-- The marks in a dialogue, in order. -/
def marks (log : List (Exchange Session)) : List Mark := log.filterMap mark?

theorem marks_append (log log' : List (Exchange Session)) : marks (log ++ log') = marks log ++ marks log' :=
  List.filterMap_append

/-- The bytes that a mark counts. -/
def Mark.bytes : Mark → Nat
  | wrote n => n
  | _ => 0

/-- What a run keeps account of. -/
structure Ledger where
  stopped : Bool
  bytesWritten : Nat
  fatal : Option ExtractError

/-- Enter a mark. The first fatal error is kept. -/
def Ledger.enter (l : Ledger) : Mark → Ledger
  | .stop => { l with stopped := true }
  | .raise e => { l with fatal := some (l.fatal.getD e) }
  | .wrote n => { l with bytesWritten := l.bytesWritten + n }

/-- The ledger in a state. -/
def RunState.ledger (s : RunState) : Ledger := ⟨s.stopped, s.bytesWritten, s.fatal⟩

theorem RunState.ledger_handler (c : SessionCall) (s : RunState) :
    (handler options c s).2.ledger = (mark? ⟨c, (handler options c s).1⟩).elim s.ledger s.ledger.enter := by
  cases c with
  | isCancelled =>
    show (s.lookAtToken options.cancelToken).2.ledger = s.ledger
    cases options.cancelToken <;> rfl
  | announce p =>
    show (s.tell p options.onProgress).ledger = s.ledger
    cases options.onProgress <;> rfl
  | _ => rfl

/-- **The ledger is made of the marks.** -/
theorem Handler.Leads.ledger (h : (RunState.handler options).Leads s log s') :
    s'.ledger = (marks log).foldl Ledger.enter s.ledger := by
  induction h with
  | nil => rfl
  | @snoc log t _ c ih =>
    refine (RunState.ledger_handler c t).trans ?_
    rw [marks_append, List.foldl_append, ← ih, marks]
    cases hmark : mark? ⟨c, (RunState.handler options c t).1⟩ with
    | none => rw [List.filterMap_cons_none hmark]; rfl
    | some m => rw [List.filterMap_cons_some hmark]; rfl

namespace Ledger

variable (l : Ledger) (ms : List Mark)

theorem stopped_foldl : (ms.foldl enter l).stopped = true ↔ l.stopped = true ∨ .stop ∈ ms := by
  induction ms generalizing l with
  | nil => simp
  | cons m ms ih =>
    rw [List.foldl_cons, ih]
    cases m <;> simp [enter]

theorem bytesWritten_foldl :
    (ms.foldl enter l).bytesWritten = l.bytesWritten + (ms.map Mark.bytes).sum := by
  induction ms generalizing l with
  | nil => rfl
  | cons m ms ih =>
    rw [List.foldl_cons, ih, List.map_cons, List.sum_cons]
    cases m <;> simp [enter, Mark.bytes, Nat.add_assoc]

theorem fatal_foldl : (ms.foldl enter l).fatal = none ↔ l.fatal = none ∧ ∀ e, .raise e ∉ ms := by
  induction ms generalizing l with
  | nil => simp
  | cons m ms ih =>
    rw [List.foldl_cons, ih]
    cases m with
    | raise e =>
      constructor
      · exact fun h => nomatch h.1
      · exact fun h => absurd List.mem_cons_self (h.2 e)
    | _ => simp [enter]

/-- What is fatal was raised. -/
theorem raise_mem_of_fatal_foldl {e : ExtractError} (h : (ms.foldl enter l).fatal = some e) :
    l.fatal = some e ∨ .raise e ∈ ms := by
  induction ms generalizing l with
  | nil => exact .inl h
  | cons m ms ih =>
    rcases ih _ h with hfatal | hraise
    · cases m with
      | raise e' =>
        cases hl : l.fatal with
        | none =>
          rw [enter, hl] at hfatal
          exact .inr (Option.some.inj hfatal ▸ List.mem_cons_self)
        | some e₀ =>
          rw [enter, hl] at hfatal
          exact .inl hfatal
      | _ => exact .inl hfatal
    · exact .inr (List.mem_cons_of_mem _ hraise)

end Ledger

namespace Handler.Leads

variable (h : (RunState.handler options).Leads s log s')

include h

theorem stopped_iff : s'.stopped = true ↔ s.stopped = true ∨ .stop ∈ marks log := by
  have hstopped := Ledger.stopped_foldl s.ledger (marks log)
  rwa [← h.ledger] at hstopped

theorem bytesWritten_eq : s'.bytesWritten = s.bytesWritten + ((marks log).map Mark.bytes).sum := by
  have hbytes := Ledger.bytesWritten_foldl s.ledger (marks log)
  rwa [← h.ledger] at hbytes

theorem fatal_eq_none_iff : s'.fatal = none ↔ s.fatal = none ∧ ∀ e, .raise e ∉ marks log := by
  have hfatal := Ledger.fatal_foldl s.ledger (marks log)
  rwa [← h.ledger] at hfatal

theorem raise_mem_of_fatal {e : ExtractError} (hfatal : s'.fatal = some e) :
    s.fatal = some e ∨ .raise e ∈ marks log := by
  have hledger : ((marks log).foldl Ledger.enter s.ledger).fatal = some e := by rwa [← h.ledger]
  exact Ledger.raise_mem_of_fatal_foldl _ _ hledger

end Handler.Leads

/-! ## Calls to the file system -/

/-- The call to the file system in an exchange. -/
def fileCall? : Exchange Session → Option FileCall
  | ⟨.file c, _⟩ => some c
  | _ => none

/-- The calls to the file system in a dialogue, in order. -/
def fileCalls (log : List (Exchange Session)) : List FileCall := log.filterMap fileCall?

theorem fileCalls_append (log log' : List (Exchange Session)) :
    fileCalls (log ++ log') = fileCalls log ++ fileCalls log' :=
  List.filterMap_append

/-- What was said to the file system in an exchange. -/
def fileExchange? : Exchange Session → Option (Exchange Files)
  | ⟨.file c, r⟩ => some ⟨c, r⟩
  | _ => none

/-- What was said to the file system in a dialogue, in order. -/
def fileExchanges (log : List (Exchange Session)) : List (Exchange Files) := log.filterMap fileExchange?

theorem fileExchanges_append (log log' : List (Exchange Session)) :
    fileExchanges (log ++ log') = fileExchanges log ++ fileExchanges log' :=
  List.filterMap_append

theorem map_fileExchanges (log : List (Exchange Session)) : (fileExchanges log).map (·.1) = fileCalls log := by
  rw [fileExchanges, List.map_filterMap, fileCalls]
  refine List.filterMap_congr fun x _ => ?_
  obtain ⟨c, r⟩ := x
  cases c <;> rfl

theorem fileExchanges_eq_nil (h : fileCalls log = []) : fileExchanges log = [] :=
  List.map_eq_nil_iff.1 ((map_fileExchanges log).trans h)

/-! ## Halting -/

/-- The next look finds the run halted. -/
def RunState.Halts (options : ExtractOptions) (s : RunState) : Prop :=
  s.stopped = true ∨ options.cancelToken.isSome = true ∧ s.cancelled = true

/-- A run that was cancelled stays so. -/
theorem RunState.cancelled_handler (h : s.cancelled = true) (c : SessionCall) :
    (handler options c s).2.cancelled = true := by
  cases c with
  | isCancelled =>
    show (s.lookAtToken options.cancelToken).2.cancelled = true
    cases options.cancelToken with
    | none => exact h
    | some token => exact Bool.or_eq_true_iff.2 (.inl h)
  | announce p =>
    show (s.tell p options.onProgress).cancelled = true
    cases options.onProgress with
    | none => exact h
    | some listener => exact Bool.or_eq_true_iff.2 (.inl h)
  | _ => exact h

theorem Handler.Leads.cancelled (hleads : (RunState.handler options).Leads s log s') (h : s.cancelled = true) :
    s'.cancelled = true := by
  induction hleads with
  | nil => exact h
  | snoc _ c ih => exact RunState.cancelled_handler ih c

/-- So does one that was stopped. -/
theorem RunState.stopped_handler (h : s.stopped = true) (c : SessionCall) : (handler options c s).2.stopped = true := by
  have hledger : (handler options c s).2.stopped = _ := congrArg Ledger.stopped (ledger_handler c s)
  refine hledger.trans ?_
  cases mark? ⟨c, (handler options c s).1⟩ with
  | none => exact h
  | some m => cases m <;> first | exact h | rfl

/-- No call takes it back. -/
theorem RunState.Halts.handler (h : s.Halts options) (c : SessionCall) :
    (RunState.handler options c s).2.Halts options :=
  h.imp (stopped_handler · c) fun ⟨htoken, hcancelled⟩ => ⟨htoken, cancelled_handler hcancelled c⟩

theorem RunState.Halts.leads (h : s.Halts options) (hleads : (RunState.handler options).Leads s log s') :
    s'.Halts options := by
  induction hleads with
  | nil => exact h
  | snoc _ c ih => exact ih.handler c

/-- A look tells whether the run halts, and changes nothing else than that. -/
theorem run_isHalted_iff {halted : Bool} (h : Session.isHalted.run (RunState.handler options) s = (halted, s')) :
    (s'.Halts options ↔ halted = true) ∧ s'.ledger = s.ledger ∧ s'.trace = s.trace := by
  cases hstopped : s.stopped with
  | true =>
    have hlook : Session.isHalted.run (RunState.handler options) s = (true, s) := by
      show Program.run _ (if s.stopped then .done true else Session.isCancelled) s = _
      rw [hstopped]
      rfl
    cases hlook.symm.trans h
    exact ⟨iff_of_true (.inl hstopped) rfl, rfl, rfl⟩
  | false =>
    have hlook : Session.isHalted.run (RunState.handler options) s = s.lookAtToken options.cancelToken := by
      show Program.run _ (if s.stopped then .done true else Session.isCancelled) s = _
      rw [hstopped]
      rfl
    rw [hlook] at h
    cases htoken : options.cancelToken with
    | none =>
      rw [htoken] at h
      cases h
      refine ⟨iff_of_false ?_ Bool.false_ne_true, rfl, rfl⟩
      rintro (hyes | ⟨hsome, -⟩)
      · rw [hstopped] at hyes
        cases hyes
      · rw [htoken] at hsome
        cases hsome
    | some token =>
      rw [htoken] at h
      cases h
      simp [RunState.Halts, RunState.ledger, hstopped, htoken]

/-- Whether an answer says that the run is halted. -/
def saysHalted : Exchange Session → Bool
  | ⟨.isStopped, stopped⟩ => stopped
  | ⟨.isCancelled, cancelled⟩ => cancelled
  | _ => false

theorem isHalted_ends {halted : Bool} (h : Session.isHalted.Ends (RunState.handler options) log halted) :
    marks log = [] ∧ fileCalls log = [] ∧ (halted = true → ∃ x ∈ log, saysHalted x = true) := by
  obtain ⟨t, rest, rfl, hrest⟩ := Program.ends_call_iff.1 h
  change (if t.stopped then .done true else Session.isCancelled : Program Session Bool).Ends _ _ _ at hrest
  cases hstopped : t.stopped with
  | true =>
    rw [hstopped, if_pos rfl] at hrest
    obtain ⟨rfl, rfl⟩ := Program.ends_done_iff.1 hrest
    exact ⟨rfl, rfl, fun _ => ⟨_, List.mem_cons_self, hstopped⟩⟩
  | false =>
    rw [hstopped, if_neg Bool.false_ne_true] at hrest
    obtain ⟨u, rest, rfl, hdone⟩ := Program.ends_call_iff.1 hrest
    obtain ⟨rfl, rfl⟩ := Program.ends_done_iff.1 hdone
    exact ⟨rfl, rfl, fun hhalted => ⟨_, List.mem_cons_of_mem _ List.mem_cons_self, hhalted⟩⟩

/-- An answer that says that the run is halted is right. -/
theorem halts_of_saysHalted {c : SessionCall} (h : saysHalted ⟨c, (RunState.handler options c s).1⟩ = true) :
    (RunState.handler options c s).2.Halts options := by
  cases c with
  | isStopped => exact .inl h
  | isCancelled =>
    change (s.lookAtToken options.cancelToken).1 = true at h
    show (s.lookAtToken options.cancelToken).2.Halts options
    cases htoken : options.cancelToken with
    | none =>
      rw [htoken] at h
      cases h
    | some token =>
      rw [htoken] at h
      exact .inr ⟨by rw [htoken]; rfl, h⟩
  | _ => cases h

theorem Handler.Leads.halts (h : (RunState.handler options).Leads s log s') (hmem : ∃ x ∈ log, saysHalted x = true) :
    s'.Halts options := by
  induction h with
  | nil =>
    obtain ⟨x, hx, -⟩ := hmem
    cases hx
  | snoc _ c ih =>
    obtain ⟨x, hx, hsays⟩ := hmem
    rcases List.mem_append.1 hx with hbefore | hlast
    · exact (ih ⟨x, hbefore, hsays⟩).handler c
    · rw [List.mem_singleton.1 hlast] at hsays
      exact halts_of_saysHalted hsays

/-- A look that finds the run going on was told twice that it does. -/
theorem going_of_look (h : Session.isHalted.Ends (RunState.handler options) log false) :
    (⟨.isStopped, false⟩ : Exchange Session) ∈ log ∧ (⟨.isCancelled, false⟩ : Exchange Session) ∈ log := by
  obtain ⟨t, rest, rfl, hrest⟩ := Program.ends_call_iff.1 h
  change (if t.stopped then .done true else Session.isCancelled : Program Session Bool).Ends _ _ _ at hrest
  cases hstopped : t.stopped with
  | true =>
    rw [hstopped, if_pos rfl] at hrest
    cases (Program.ends_done_iff.1 hrest).2
  | false =>
    rw [hstopped, if_neg Bool.false_ne_true] at hrest
    obtain ⟨u, rest, rfl, hdone⟩ := Program.ends_call_iff.1 hrest
    obtain ⟨rfl, hreply⟩ := Program.ends_done_iff.1 hdone
    have hhead : (⟨.isStopped, (RunState.handler options .isStopped t).1⟩ : Exchange Session) = ⟨.isStopped, false⟩ :=
      congrArg (Sigma.mk SessionCall.isStopped) hstopped
    have hnext : (⟨.isCancelled, (RunState.handler options .isCancelled u).1⟩ : Exchange Session) = ⟨.isCancelled, false⟩ :=
      congrArg (Sigma.mk SessionCall.isCancelled) hreply.symm
    rw [← hhead, ← hnext]
    exact ⟨List.mem_cons_self, List.mem_cons_of_mem _ List.mem_cons_self⟩

/-- Nobody is told both once the run halts. -/
theorem Handler.Leads.not_going (hleads : (RunState.handler options).Leads s log s') (hhalts : s.Halts options) :
    ¬((⟨.isStopped, false⟩ : Exchange Session) ∈ log ∧ (⟨.isCancelled, false⟩ : Exchange Session) ∈ log) := by
  rintro ⟨hgoing, hkept⟩
  rcases hhalts with hstopped | ⟨htoken, hcancelled⟩
  · obtain ⟨t, ht, hreply⟩ := (hleads.exists_replied (·.stopped = true) hstopped fun c _ h => RunState.stopped_handler h c).2
      _ hgoing
    have hfalse : false = t.stopped := eq_of_heq (Sigma.mk.inj hreply).2
    cases hfalse.trans ht
  · obtain ⟨t, ht, hreply⟩ := (hleads.exists_replied (·.cancelled = true) hcancelled fun c _ h =>
      RunState.cancelled_handler h c).2 _ hkept
    have hfalse : false = (t.lookAtToken options.cancelToken).1 := eq_of_heq (Sigma.mk.inj hreply).2
    obtain ⟨token, htoken⟩ := Option.isSome_iff_exists.1 htoken
    rw [htoken] at hfalse
    cases hfalse.trans (Bool.or_eq_true_iff.2 (.inl ht) : (t.lookAtToken (some token)).1 = true)

/-! ## Programs on files -/

/-- An exchange with the file system, as one of a run. -/
def onFile (x : Exchange Files) : Exchange Session := ⟨.file x.1, x.2⟩

/-- The call that an event shows. -/
def Event.fileCall? : Event → Option FileCall
  | call c _ => some c
  | told _ => none

/-- The calls to the file system so far, in order. -/
def RunState.calls (s : RunState) : List FileCall := s.trace.filterMap (·.fileCall?)

/-- What was said to the file system when an event showed. -/
def Event.exchange? : Event → Option (Exchange Files)
  | call c fs => some ⟨c, (fs.answer c).1⟩
  | told _ => none

/-- What was said to the file system so far, in order. -/
def RunState.exchanges (s : RunState) : List (Exchange Files) := s.trace.filterMap (·.exchange?)

theorem RunState.map_exchanges (s : RunState) : s.exchanges.map (·.1) = s.calls := by
  rw [exchanges, List.map_filterMap, calls]
  refine List.filterMap_congr fun x _ => ?_
  cases x <;> rfl

/-- The trace shows what was said. -/
theorem Handler.Leads.exchanges (h : (RunState.handler options).Leads s log s') :
    s'.exchanges = s.exchanges ++ fileExchanges log := by
  induction h with
  | nil => exact (List.append_nil _).symm
  | @snoc log t _ c ih =>
    rw [fileExchanges_append, ← List.append_assoc, ← ih]
    have hsame : ∀ u : RunState, u.trace = t.trace → u.exchanges = t.exchanges ++ [] :=
      fun u hu => (congrArg (List.filterMap _) hu).trans (List.append_nil _).symm
    cases c with
    | file c => exact List.filterMap_append
    | isCancelled => exact hsame _ (RunState.fs_lookAtToken _ _).2
    | announce p =>
      change (t.tell p options.onProgress).exchanges = t.exchanges ++ []
      cases options.onProgress with
      | none => exact hsame _ rfl
      | some listener => exact List.filterMap_append
    | _ => exact hsame _ rfl

/-- The trace shows the calls that were made. -/
theorem Handler.Leads.calls (h : (RunState.handler options).Leads s log s') : s'.calls = s.calls ++ fileCalls log := by
  rw [← RunState.map_exchanges, h.exchanges, List.map_append, RunState.map_exchanges, map_fileExchanges]
  rfl

theorem marks_map_onFile (asked : List (Exchange Files)) : marks (asked.map onFile) = [] := by
  induction asked with
  | nil => rfl
  | cons x asked ih => exact ih

theorem mem_fileCalls_map_onFile {asked : List (Exchange Files)} {c : FileCall} :
    c ∈ fileCalls (asked.map onFile) ↔ ∃ x ∈ asked, x.1 = c := by
  rw [fileCalls, List.filterMap_map, List.mem_filterMap]
  exact exists_congr fun x => and_congr_right fun _ => Option.some_inj

theorem fileExchanges_map_onFile (asked : List (Exchange Files)) : fileExchanges (asked.map onFile) = asked := by
  induction asked with
  | nil => rfl
  | cons x asked ih => exact congrArg (x :: ·) ih

theorem onFiles_ends {prog : Program Files α} {a : α}
    (h : (Session.onFiles prog).Ends (RunState.handler options) log a) :
    ∃ asked, prog.Ends FileSystem.answer asked a ∧ log = asked.map onFile := by
  induction prog generalizing log with
  | done a =>
    obtain ⟨rfl, rfl⟩ := Program.ends_done_iff.1 h
    exact ⟨[], .done _, rfl⟩
  | call c next ih =>
    obtain ⟨t, rest, rfl, hrest⟩ := Program.ends_call_iff.1 h
    obtain ⟨asked, hends, rfl⟩ := ih _ hrest
    exact ⟨_, .call t.fs hends, rfl⟩

/-! ## Entries -/

/-- Whether an entry failed. -/
def Outcome.isFailed : Outcome → Bool
  | failed _ _ => true
  | _ => false

theorem Outcome.isFailure_of_isFailed (h : o.isFailed = true) : o.isFailure = true := by
  cases o with
  | failed kind message => rfl
  | _ => cases h

theorem isFailed_of_blocked? {failures : RunPlan.Failures} (h : RunPlan.blocked? failures e = some o) :
    o.isFailed = true := by
  rw [RunPlan.blocked?] at h
  split at h
  · cases h
  · obtain ⟨kind, -, rfl⟩ := Option.map_eq_some_iff.1 h
    rfl

theorem entryDone_ends {path : String} {written : Nat}
    (h : (plan.entryDone path written).Ends (RunState.handler options) log ()) :
    marks log = [.wrote written] ∧ fileCalls log = [] := by
  obtain ⟨_, _, rfl, hbytes⟩ := Program.ends_call_iff.1 h
  obtain ⟨_, _, rfl, hannounce⟩ := Program.ends_call_iff.1 hbytes
  obtain ⟨_, _, rfl, hdone⟩ := Program.ends_call_iff.1 hannounce
  obtain ⟨rfl, -⟩ := Program.ends_done_iff.1 hdone
  exact ⟨rfl, rfl⟩

/-- The marks of a file that failed. -/
def RunPlan.failureMarks (plan : RunPlan) (err : ExtractError) : List Mark :=
  if err.isPathError && plan.options.strict then [.stop, .raise err]
  else if plan.options.stopOnFirstError then [.stop] else []

theorem fileFailed_ends {err : ExtractError}
    (h : (plan.fileFailed err).Ends (RunState.handler options) log o) :
    o = .ofError err ∧ marks log = plan.failureMarks err ∧ fileCalls log = [] := by
  rw [RunPlan.fileFailed] at h
  rw [RunPlan.failureMarks]
  split
  · next hfatal =>
    rw [if_pos hfatal] at h
    obtain ⟨_, _, rfl, hraise⟩ := Program.ends_call_iff.1 h
    obtain ⟨_, _, rfl, hdone⟩ := Program.ends_call_iff.1 hraise
    obtain ⟨rfl, rfl⟩ := Program.ends_done_iff.1 hdone
    exact ⟨rfl, rfl, rfl⟩
  · next hrecorded =>
    rw [if_neg hrecorded] at h
    split
    · next hstop =>
      rw [if_pos hstop] at h
      obtain ⟨_, _, rfl, hdone⟩ := Program.ends_call_iff.1 h
      obtain ⟨rfl, rfl⟩ := Program.ends_done_iff.1 hdone
      exact ⟨rfl, rfl, rfl⟩
    · next hgo =>
      rw [if_neg hgo] at h
      obtain ⟨rfl, rfl⟩ := Program.ends_done_iff.1 h
      exact ⟨rfl, rfl, rfl⟩

/-- What a program learns from any states, it has learned when it ends. -/
theorem Program.Ends.learns {I : Interface} {σ : Type} {h : Handler I σ} {prog : Program I α} {asked : List (Exchange I)}
    {a : α} {told : α → Prop} (hends : prog.Ends h asked a) (hlearns : prog.Learns h (fun _ => True) told) : told a := by
  induction hends with
  | done a => exact hlearns
  | call t _ ih => exact ih (hlearns t trivial)

/-- An outcome of a file that was brought to its destination is none of failure. -/
theorem writeFile_settles (options : ExtractOptions) (realRoot destination : Path) (e : Entry) (content : Bytes) :
    (writeFile options realRoot destination e content).Learns FileSystem.answer (fun _ => True)
      (fun result => ∀ o, result = .ok o → o.isFailure = false) := by
  have hverified : ∀ (write : WriteOptions) (o : Outcome), o.isFailure = false →
      ((writeVerified destination content e.digest write).bind fun result => .done (result.map fun _ => o)).Learns
        FileSystem.answer (fun _ => True) (fun result => ∀ o, result = .ok o → o.isFailure = false) := by
    intro write o ho
    refine (Program.learns_true _).bind fun result _ => ?_
    cases result with
    | error err => exact nofun
    | ok _ =>
      rintro _ ⟨⟩
      exact ho
  refine (Program.learns_true _).bind fun confirmed _ => ?_
  cases confirmed with
  | error err => exact nofun
  | ok _ =>
    refine (Program.learns_true _).bind fun existing _ => ?_
    rcases existing with err | _ | digest
    · exact nofun
    · exact hverified ⟨e.mode, options.sync⟩ .created rfl
    · cases hleave : options.overwrite.leave? (digest == e.digest) with
      | none =>
        simp only [hleave]
        exact hverified ⟨e.mode, options.sync⟩ .overwritten rfl
      | some o =>
        simp only [hleave]
        rintro _ ⟨⟩
        cases hpolicy : options.overwrite <;> cases hsame : digest == e.digest <;> rw [hpolicy, hsame] at hleave <;>
          cases hleave <;> rfl

/-- What is said for a file. -/
theorem placeFile_ends (h : (plan.placeFile image p e).Ends (RunState.handler options) log o) :
    ∃ asked result, (writeFile plan.options plan.realRoot p e (image.content e)).Ends FileSystem.answer asked result ∧
      fileExchanges log = asked ∧
      ∃ failure, marks log = failure ++ [.wrote (if o.isWritten then (image.content e).length else 0)] ∧
        (result = .ok o ∧ o.isFailure = false ∧ failure = [] ∨
          ∃ err, result = .error err ∧ o = .ofError err ∧ failure = plan.failureMarks err) := by
  obtain ⟨result, _, rest, rfl, hfirst, hrest⟩ := Program.ends_bind_iff.1 h
  obtain ⟨asked, hwrite, rfl⟩ := onFiles_ends hfirst
  clear h hfirst
  refine ⟨asked, result, hwrite, ?_⟩
  have hok := hwrite.learns (writeFile_settles ..)
  -- the entry is counted when its outcome is settled
  have hcounted : ∀ {log : List (Exchange Session)} {o' : Outcome},
      ((plan.entryDone e.path (if o'.isWritten then (image.content e).length else 0)).bind fun _ => .done o').Ends
        (RunState.handler options) log o →
      o = o' ∧ marks log = [.wrote (if o.isWritten then (image.content e).length else 0)] ∧ fileCalls log = [] := by
    intro log o' h
    obtain ⟨_, first, _, rfl, hcount, hdone⟩ := Program.ends_bind_iff.1 h
    obtain ⟨rfl, rfl⟩ := Program.ends_done_iff.1 hdone
    rw [List.append_nil]
    exact ⟨rfl, entryDone_ends hcount⟩
  rw [fileExchanges_append, fileExchanges_map_onFile, marks_append, marks_map_onFile, List.nil_append]
  cases result with
  | ok o' =>
    obtain ⟨rfl, hmarks, hcalls⟩ := hcounted hrest
    exact ⟨by rw [fileExchanges_eq_nil hcalls, List.append_nil], [], hmarks, .inl ⟨rfl, hok o rfl, rfl⟩⟩
  | error err =>
    obtain ⟨o', first, rest, rfl, hfailed, hcount⟩ := Program.ends_bind_iff.1 hrest
    obtain ⟨rfl, hfailure, hquiet⟩ := fileFailed_ends hfailed
    obtain ⟨rfl, hmarks, hcalls⟩ := hcounted hcount
    rw [fileExchanges_append, marks_append, hmarks, fileExchanges_eq_nil hcalls, fileExchanges_eq_nil hquiet, hfailure]
    exact ⟨List.append_nil _, _, rfl, .inr ⟨err, rfl, rfl, rfl⟩⟩

/-- What is said for a directory: nothing if it is blocked. -/
theorem placeDirectory_ends {failures : RunPlan.Failures}
    (h : (plan.placeDirectory failures p e).Ends (RunState.handler options) log (.ok (o, made))) :
    (made = true → o = .created) ∧ (o = .created ∨ o = .skippedUnchanged ∨ o.isFailed = true) ∧
      (RunPlan.blocked? failures e = some o ∧ made = false ∧ log = [] ∨
        RunPlan.blocked? failures e = none ∧
          marks log = (if o.isFailed && plan.options.stopOnFirstError then [.stop] else []) ∧
          ∃ asked result, (createDirectory plan.realRoot p e.path).Ends FileSystem.answer asked result ∧
            fileCalls log = fileCalls (asked.map onFile)) := by
  rw [RunPlan.placeDirectory] at h
  cases hblocked : RunPlan.blocked? failures e with
  | some o' =>
    rw [hblocked] at h
    obtain ⟨rfl, heq⟩ := Program.ends_done_iff.1 h
    cases heq
    exact ⟨nofun, .inr (.inr (isFailed_of_blocked? hblocked)), .inl ⟨rfl, rfl, rfl⟩⟩
  | none =>
    rw [hblocked] at h
    obtain ⟨result, first, rest, rfl, hfirst, hrest⟩ := Program.ends_bind_iff.1 h
    obtain ⟨asked, hcreate, rfl⟩ := onFiles_ends hfirst
    clear h hfirst
    rw [marks_append, marks_map_onFile, List.nil_append, fileCalls_append]
    have htried : ∀ {ms : List Mark}, marks rest = ms → fileCalls rest = [] →
        marks rest = ms ∧ ∃ asked' result, (createDirectory plan.realRoot p e.path).Ends FileSystem.answer asked' result ∧
          fileCalls (asked.map onFile) ++ fileCalls rest = fileCalls (asked'.map onFile) :=
      fun hmarks hcalls => ⟨hmarks, asked, result, hcreate, by rw [hcalls, List.append_nil]⟩
    rcases result with err | ⟨⟩ | ⟨⟩
    · change (if _ then _ else _ : Program Session (Except ExtractError (Outcome × Bool))).Ends _ _ _ at hrest
      split at hrest
      · obtain ⟨-, heq⟩ := Program.ends_done_iff.1 hrest
        cases heq
      · cases hstop : plan.options.stopOnFirstError with
        | true =>
          rw [hstop] at hrest
          obtain ⟨_, _, rfl, hdone⟩ := Program.ends_call_iff.1 hrest
          obtain ⟨rfl, heq⟩ := Program.ends_done_iff.1 hdone
          cases heq
          exact ⟨nofun, .inr (.inr rfl), .inr ⟨rfl, htried rfl rfl⟩⟩
        | false =>
          rw [hstop] at hrest
          obtain ⟨rfl, heq⟩ := Program.ends_done_iff.1 hrest
          cases heq
          exact ⟨nofun, .inr (.inr rfl), .inr ⟨rfl, htried rfl rfl⟩⟩
    · obtain ⟨rfl, heq⟩ := Program.ends_done_iff.1 hrest
      cases heq
      exact ⟨fun _ => rfl, .inl rfl, .inr ⟨rfl, htried rfl rfl⟩⟩
    · obtain ⟨rfl, heq⟩ := Program.ends_done_iff.1 hrest
      cases heq
      exact ⟨nofun, .inr (.inl rfl), .inr ⟨rfl, htried rfl rfl⟩⟩

end TreeImage
