import TreeImage.Proofs.Extract.Aborting
import TreeImage.Proofs.Extract.Amounts
import TreeImage.Proofs.Extract.Isolation

set_option autoImplicit false

/-! # The account that a run gives

The numbers in the notes of a run follow one another, since each was taken from a counter. So what the listener is told
is numbered without gaps from the entries that were rejected on, whatever the workers do, and ends with all entries if
none was left out. Of a single worker the listener also hears in order, and at every moment the bytes are those of
the files in place of which it heard (`extract_accounts`). -/

namespace TreeImage

variable {options : ExtractOptions} {plan : RunPlan} {image : Image} {schedule : List Nat} {s s' : RunState}
  {log : List (Exchange Session)} {notes : List Note} {n : Note} {root : Path} {entries : List Entry}
  {slot slot' : Slot} {slots ended : List Slot} {result : Except ExtractError Report} {report : Report} {α : Type}

/-! ## Counters -/

/-- How many entries were counted when one was. -/
def counted? : Exchange Session → Option Nat
  | ⟨.countEntry, done⟩ => some done
  | _ => none

/-- How many bytes were counted, and what they came to. -/
def summed? : Exchange Session → Option (Nat × Nat)
  | ⟨.countBytes written, bytes⟩ => some (written, bytes)
  | _ => none

theorem counted?_eq_none (x : Exchange Session) (h : SessionCall.isCount x.1 = false) : counted? x = none := by
  obtain ⟨c, r⟩ := x
  cases c <;> first | rfl | cases h

theorem summed?_eq_none (x : Exchange Session) (h : SessionCall.isCount x.1 = false) : summed? x = none := by
  obtain ⟨c, r⟩ := x
  cases c <;> first | rfl | cases h

/-- A call counts an entry, or it leaves their number alone. -/
theorem RunState.counted_handler (options : ExtractOptions) (c : SessionCall) (s : RunState) :
    counted? ⟨c, (handler options c s).1⟩ = none ∧ (handler options c s).2.entriesDone = s.entriesDone ∨
      counted? ⟨c, (handler options c s).1⟩ = some (s.entriesDone + 1) ∧
        (handler options c s).2.entriesDone = s.entriesDone + 1 := by
  cases c with
  | countEntry => exact .inr ⟨rfl, rfl⟩
  | announce p =>
    refine .inl ⟨rfl, ?_⟩
    show (s.tell p options.onProgress).entriesDone = _
    cases options.onProgress <;> rfl
  | isCancelled =>
    refine .inl ⟨rfl, ?_⟩
    show (s.lookAtToken options.cancelToken).2.entriesDone = _
    cases options.cancelToken <;> rfl
  | _ => exact .inl ⟨rfl, rfl⟩

/-- Entries are counted one by one. -/
theorem Handler.Leads.counted (h : (RunState.handler options).Leads s log s') :
    ∃ k, s'.entriesDone = s.entriesDone + k ∧ log.filterMap counted? = List.range' (s.entriesDone + 1) k := by
  induction h with
  | nil => exact ⟨0, rfl, rfl⟩
  | @snoc log t _ c ih =>
    obtain ⟨k, hdone, hcounted⟩ := ih
    rw [List.filterMap_append, hcounted]
    obtain ⟨hnone, hsame⟩ | ⟨hsome, hnext⟩ := t.counted_handler options c
    · refine ⟨k, hsame.trans hdone, ?_⟩
      rw [List.filterMap_cons_none hnone, List.filterMap_nil, List.append_nil]
    · refine ⟨k + 1, by rw [hnext, hdone, Nat.add_assoc], ?_⟩
      rw [List.filterMap_cons_some hsome, List.filterMap_nil, List.range'_concat, Nat.one_mul, hdone,
        Nat.add_right_comm]

/-- Each of the numbers on the right is the sum of those on the left up to it. -/
def RunningSums (start : Nat) (xs : List (Nat × Nat)) : Prop :=
  ∀ (i : Nat) (x : Nat × Nat), xs[i]? = some x → x.2 = start + ((xs.take (i + 1)).map (·.1)).sum

theorem RunningSums.concat {start : Nat} {xs : List (Nat × Nat)} (h : RunningSums start xs) (w : Nat) :
    RunningSums start (xs ++ [(w, start + (xs.map (·.1)).sum + w)]) := by
  intro i x hx
  rcases Nat.lt_or_ge i xs.length with hlt | hge
  · rw [List.getElem?_append_left hlt] at hx
    rw [List.take_append_of_le_length hlt]
    exact h i x hx
  · rw [List.getElem?_append_right hge] at hx
    obtain ⟨hlast, rfl⟩ := List.getElem?_eq_some_iff.1 hx
    rw [List.take_of_length_le (by simp at hlast ⊢; omega), List.map_append, List.sum_append]
    simp [Nat.add_assoc]

/-- A call counts some bytes, or it leaves their sum alone. -/
theorem RunState.summed_handler (options : ExtractOptions) (c : SessionCall) (s : RunState) :
    summed? ⟨c, (handler options c s).1⟩ = none ∧ (handler options c s).2.bytesWritten = s.bytesWritten ∨
      ∃ w, summed? ⟨c, (handler options c s).1⟩ = some (w, s.bytesWritten + w) ∧
        (handler options c s).2.bytesWritten = s.bytesWritten + w := by
  cases c with
  | countBytes w => exact .inr ⟨w, rfl, rfl⟩
  | announce p =>
    refine .inl ⟨rfl, ?_⟩
    show (s.tell p options.onProgress).bytesWritten = _
    cases options.onProgress <;> rfl
  | isCancelled =>
    refine .inl ⟨rfl, ?_⟩
    show (s.lookAtToken options.cancelToken).2.bytesWritten = _
    cases options.cancelToken <;> rfl
  | _ => exact .inl ⟨rfl, rfl⟩

/-- What bytes come to when some are counted is what was counted so far. -/
theorem Handler.Leads.summed (h : (RunState.handler options).Leads s log s') :
    s'.bytesWritten = s.bytesWritten + ((log.filterMap summed?).map (·.1)).sum ∧
      RunningSums s.bytesWritten (log.filterMap summed?) := by
  induction h with
  | nil => exact ⟨rfl, fun i x hx => nomatch hx⟩
  | @snoc log t _ c ih =>
    obtain ⟨hsum, hsums⟩ := ih
    rw [List.filterMap_append]
    obtain ⟨hnone, hsame⟩ | ⟨w, hsome, hnext⟩ := t.summed_handler options c
    · rw [List.filterMap_cons_none hnone, List.filterMap_nil, List.append_nil, hsame]
      exact ⟨hsum, hsums⟩
    · rw [List.filterMap_cons_some hsome, List.filterMap_nil, hnext, hsum]
      refine ⟨?_, hsums.concat w⟩
      rw [List.map_append, List.sum_append, Nat.add_assoc]
      rfl

/-! ## Numbers in notes -/

theorem filterMap_exchanges (plan : RunPlan) (notes : List Note) :
    (notes.flatMap (·.exchanges plan)).filterMap counted? = notes.map (·.done) ∧
      (notes.flatMap (·.exchanges plan)).filterMap summed? = notes.map fun n => (n.written, n.bytes) := by
  induction notes with
  | nil => exact ⟨rfl, rfl⟩
  | cons n notes ih => exact ⟨congrArg (n.done :: ·) ih.1, congrArg ((n.written, n.bytes) :: ·) ih.2⟩

namespace RunPlan.Tells

/-- The notes are numbered from the first entry on that is not counted yet. -/
theorem numbers (h : plan.Tells options s s' notes) :
    options.Mixes (notes.map (·.done)) (List.range' (s.entriesDone + 1) notes.length) := by
  obtain ⟨log, hleads, hnotes⟩ := h
  obtain ⟨k, -, hcounted⟩ := hleads.counted
  have hdone := hnotes.filterMap counted?
  rw [filterMap_counting counted?_eq_none, hcounted,
    (filterMap_exchanges plan notes).1] at hdone
  have hlength : k = notes.length := by simpa using hdone.1.length_eq
  exact hlength ▸ hdone.symm

/-- One worker notes the bytes that were counted so far. -/
theorem bytes_eq (h : plan.Tells options s s' notes) (hworkers : options.workers ≤ 1) {i : Nat}
    (hn : notes[i]? = some n) : n.bytes = s.bytesWritten + ((notes.take (i + 1)).map (·.written)).sum := by
  obtain ⟨log, hleads, hnotes⟩ := h
  have hsummed := congrArg (List.filterMap summed?) (hnotes.2 hworkers)
  rw [filterMap_counting summed?_eq_none,
    (filterMap_exchanges plan notes).2] at hsummed
  have hsum := hleads.summed.2 i (n.written, n.bytes) (by rw [hsummed, List.getElem?_map, hn]; rfl)
  rw [hsummed, ← List.map_take, List.map_map] at hsum
  exact hsum

/-- What the listener is told is what the notes tell. -/
theorem announced (h : plan.Tells options s s' notes) (hlistener : options.onProgress.isSome = true) :
    ∃ calls, s'.announced = s.announced ++ calls ∧ options.Mixes calls (notes.map plan.progress) := by
  obtain ⟨log, hleads, hnotes⟩ := h
  refine ⟨announcements log, by rw [hleads.announced, if_pos hlistener], ?_⟩
  have htold : options.Mixes (announcements (counting log)) (announcements (notes.flatMap (·.exchanges plan))) :=
    hnotes.filterMap announcement?
  rwa [announcements_counting, announcements_notes] at htold

/-- Without a listener nobody is told. -/
theorem announced_of_none (h : plan.Tells options s s' notes) (hlistener : options.onProgress.isSome = false) :
    s'.announced = s.announced := by
  obtain ⟨log, hleads, -⟩ := h
  rw [hleads.announced, hlistener, if_neg Bool.false_ne_true, List.append_nil]

end RunPlan.Tells

/-! ## Sums of accounts -/

/-- In a list without equal keys, the keys of a part find that part. -/
theorem filter_keys_eq {κ : Type} [DecidableEq κ] {key : α → κ} {xs ys zs : List α}
    (h : ((xs ++ (ys ++ zs)).map key).Nodup) :
    (xs ++ (ys ++ zs)).filter (fun x => (ys.map key).contains (key x)) = ys := by
  rw [List.map_append, List.map_append, List.nodup_append] at h
  obtain ⟨-, hrest, hbefore⟩ := h
  have hafter := (List.nodup_append.1 hrest).2.2
  have hfirst : xs.filter (fun x => (ys.map key).contains (key x)) = [] := by
    refine List.filter_eq_nil_iff.2 fun x hx hin => ?_
    exact hbefore _ (List.mem_map_of_mem hx) _ (List.mem_append_left _ (List.contains_iff_mem.1 hin)) rfl
  have hlast : zs.filter (fun x => (ys.map key).contains (key x)) = [] := by
    refine List.filter_eq_nil_iff.2 fun z hz hin => ?_
    exact hafter _ (List.contains_iff_mem.1 hin) _ (List.mem_map_of_mem hz) rfl
  rw [List.filter_append, List.filter_append, hfirst, hlast, List.append_nil, List.nil_append, List.filter_eq_self]
  exact fun y hy => List.contains_iff_mem.2 (List.mem_map_of_mem hy)

theorem filter_decided (slots : List Slot) (q : String → Bool) :
    (decided slots).filter (fun x => q x.1) = decided (slots.filter fun slot => q slot.entry.path) := by
  rw [decided, decided, List.filter_map, List.filter_filter, List.filter_filter]
  congr 2
  funext slot
  exact Bool.and_comm _ _

theorem paths_decided_sublist (slots : List Slot) :
    ((decided slots).map (·.1)).Sublist (slots.map (·.entry.path)) := by
  rw [decided, List.map_map]
  exact List.filter_sublist.map _

namespace Accounts

variable (h : Accounts slots ended notes)

include h

theorem paths_eq : ended.map (·.entry.path) = slots.map (·.entry.path) := by
  have hpaths := congrArg (List.map (·.path)) h.entries
  rwa [List.map_map, List.map_map] at hpaths

/-- The bytes in the first notes are those of the slots that they are about. -/
theorem sum_take (hpaths : (slots.map (·.entry.path)).Nodup) (k : Nat) : ((notes.take k).map (·.written)).sum =
    ((ended.filter fun slot => ((notes.take k).map (·.path)).contains slot.entry.path).map (·.written)).sum := by
  let q (path : String) : Bool := ((notes.take k).map (·.path)).contains path
  have hkeys : ((notes.take k).map (·.account)).map (·.1) = (notes.take k).map (·.path) := List.map_map
  have hsplit : decided slots ++ notes.map (·.account) =
      decided slots ++ ((notes.take k).map (·.account) ++ (notes.drop k).map (·.account)) := by
    rw [← List.map_append, List.take_append_drop]
  have hnodup : ((decided slots ++ notes.map (·.account)).map (·.1)).Nodup :=
    (h.accounts.map _).nodup_iff.2 ((h.paths_eq ▸ hpaths).sublist (paths_decided_sublist ended))
  have hfound : (decided slots ++ notes.map (·.account)).filter (fun x => q x.1) = (notes.take k).map (·.account) := by
    have hfiltered := filter_keys_eq (hsplit ▸ hnodup)
    rwa [hkeys, ← hsplit] at hfiltered
  calc ((notes.take k).map (·.written)).sum
      = (((notes.take k).map (·.account)).map (·.2)).sum := by rw [List.map_map]; rfl
    _ = (((decided ended).filter fun x => q x.1).map (·.2)).sum := by
        rw [← hfound]
        exact ((h.accounts.filter _).map _).sum_eq
    _ = ((ended.filter fun slot => q slot.entry.path).map (·.written)).sum := by rw [filter_decided, sum_decided]

end Accounts

/-- Whether the result of a run tells that the content of the entry with this path was put in place. -/
def tellsWritten : Except ExtractError Report → String → Bool
  | .ok report, path => report.entries.any fun r => r.path == path && r.outcome.isWritten
  | .error (.aborted _ committed), path => committed.contains path
  | .error _, _ => false

/-- The slots stand for the bytes of the files that the result tells of. -/
def StandFor (result : Except ExtractError Report) (slots : List Slot) : Prop :=
  ∀ slot ∈ slots, slot.written =
    if slot.entry.isFile && tellsWritten result slot.entry.path then slot.entry.size.toNat else 0

theorem StandFor.sum_filter (h : StandFor result slots) (q : String → Bool) :
    ((slots.filter fun slot => q slot.entry.path).map (·.written)).sum = Entry.totalBytes
      ((slots.map (·.entry)).filter fun e => e.isFile && tellsWritten result e.path && q e.path) := by
  induction slots with
  | nil => rfl
  | cons slot rest ih =>
    obtain ⟨hslot, hrest⟩ := List.forall_mem_cons.1 h
    rw [List.map_cons, List.filter_cons, List.filter_cons]
    cases hq : q slot.entry.path with
    | false =>
      rw [Bool.and_false, if_neg Bool.false_ne_true, if_neg Bool.false_ne_true]
      exact ih hrest
    | true =>
      rw [Bool.and_true, if_pos rfl, List.map_cons, List.sum_cons, ih hrest, hslot]
      split
      · rw [Entry.totalBytes_cons]
      · exact Nat.zero_add _

/-! ## What a result tells -/

theorem Slot.written_congr {b : Bool} (h : slot.entry.isFile = true → slot.outcome.any (·.isWritten) = b) :
    slot.written = if slot.entry.isFile && b then slot.entry.size.toNat else 0 := by
  rw [written]
  cases hfile : slot.entry.isFile with
  | false => rfl
  | true => rw [h hfile]

theorem eq_of_paths (hpaths : (slots.map (·.entry.path)).Nodup) (hslot : slot ∈ slots) (hslot' : slot' ∈ slots)
    (hsame : slot'.entry.path = slot.entry.path) : slot' = slot :=
  List.inj_on_of_nodup_map hpaths hslot' hslot hsame

section Opened

variable (hopened : List.Forall₂ (fun e slot => Slot.Opened root e slot) entries slots)
  (hpaths : (entries.map (·.path)).Nodup)

include hopened

/-- A report tells of the files that the slots stand for, since finishing changes only directories. -/
theorem Course.standFor (c : Course options plan schedule image slots s report s')
    (hpaths : (entries.map (·.path)).Nodup) : StandFor (.ok report) c.assigned := by
  have hreport : report.entries = c.finished.map (·.report) := congrArg Report.entries c.report
  have hfinished : (c.finished.map (·.entry.path)).Nodup := by
    rw [← c.map_entry hopened, List.map_map] at hpaths
    exact hpaths
  intro slot hslot
  refine Slot.written_congr fun hfile => ?_
  obtain ⟨slot', hslot', hfinishes⟩ := exists_of_forall₂ c.finishes.flip hslot
  obtain rfl : slot' = slot := by
    obtain rfl | ⟨hmade, -⟩ := hfinishes
    · rfl
    · cases hfile.symm.trans (c.directory_of_made hopened hslot hmade)
  rw [Bool.eq_iff_iff, tellsWritten, hreport, List.any_eq_true]
  constructor
  · intro hwritten
    refine ⟨_, List.mem_map_of_mem hslot', ?_⟩
    rw [Bool.and_eq_true, beq_iff_eq, slot'.isWritten_report]
    exact ⟨rfl, hwritten⟩
  · rintro ⟨_, hmem, htold⟩
    obtain ⟨other, hother, rfl⟩ := List.mem_map.1 hmem
    rw [Bool.and_eq_true, beq_iff_eq, other.isWritten_report] at htold
    exact eq_of_paths hfinished hslot' hother htold.1 ▸ htold.2

/-- An abort tells of the files that the slots stand for. -/
theorem Passage.standFor (c : Passage options plan schedule image slots s) (hpaths : (entries.map (·.path)).Nodup)
    (cause : ExtractError) :
    StandFor (.error (.aborted cause (RunPlan.committedPaths (c.waiting.filter (·.isPending)) c.results)))
      (RunPlan.assignResults c.waiting c.results) := by
  have hassigned : ((RunPlan.assignResults c.waiting c.results).map (·.entry.path)).Nodup := by
    rw [← c.map_entry_waiting hopened, ← map_entry_assignResults c.waiting c.results, List.map_map] at hpaths
    exact hpaths
  intro slot hslot
  refine Slot.written_congr fun hfile => ?_
  rw [Bool.eq_iff_iff, tellsWritten, List.contains_iff_mem, mem_committedPaths]
  constructor
  · intro hwritten
    rcases mem_assignResults hslot with ⟨hwaiting, -⟩ | ⟨i, pending, hpending, rfl⟩
    · -- a file that was decided before the pool has failed
      obtain ⟨o, ho, hwritten⟩ := (Option.any_eq_true _ _).1 hwritten
      have hfailed := (c.beforePool hopened slot hwaiting).file hfile o ho
      cases hwritten.symm.trans (Outcome.isWritten_eq_false_of_isFailed hfailed)
    · obtain ⟨o, ho, hwritten⟩ := (Option.any_eq_true _ _).1 hwritten
      exact ⟨pending, ⟨i, o, hpending, Option.join_eq_some_iff.1 ho, hwritten⟩, rfl⟩
  · rintro ⟨pending, ⟨i, o, hpending, hresult, hwritten⟩, hpath⟩
    have hother : ({ pending with outcome := c.results[i]?.join } : Slot) ∈
        RunPlan.assignResults c.waiting c.results := mem_assignResults_iff.2 (.inr ⟨i, pending, hpending, rfl⟩)
    rw [← eq_of_paths hassigned hslot hother hpath]
    show Option.any _ c.results[i]?.join = true
    rw [hresult]
    exact hwritten

/-- Where the directory pass fails, no file was put in place. -/
theorem standFor_of_failed {err : ExtractError}
    (hpass : (plan.directoryPass [] slots).run (RunState.handler options) s = (.error err, s'))
    (haccounts : Accounts slots ended notes) (hnothing : NothingWritten notes) : StandFor (.error err) ended := by
  have hsum := haccounts.sum_written
  rw [sum_written_opened hopened, hnothing.sum_eq_zero] at hsum
  have hentry := directoryPass_fails.run s err (by rw [hpass])
  intro slot hslot
  have hzero : slot.written = 0 := List.sum_eq_zero_iff.1 hsum.symm _ (List.mem_map_of_mem hslot)
  have hnone : tellsWritten (.error err) slot.entry.path = false := by
    cases err with
    | aborted cause committed => cases hentry
    | _ => rfl
  rw [hzero, hnone, Bool.and_false, if_neg Bool.false_ne_true]

/-- A directory that the run made has an outcome. -/
theorem Passage.isSome_of_made (c : Passage options plan schedule image slots s) :
    ∀ slot ∈ c.waiting, slot.made = true → slot.outcome.isSome = true := by
  intro slot hslot hmade
  obtain ⟨placed, hplaced, rfl⟩ := List.mem_map.1 hslot
  obtain ⟨start, hstart, hsettles⟩ := exists_of_forall₂ c.directories.settles hplaced
  obtain ⟨e, -, hopened⟩ := exists_of_forall₂ hopened hstart
  rcases placed.under_eq c.failures with heq | ⟨-, -, o, -, heq⟩
  · rw [heq] at hmade ⊢
    cases hsettles with
    | same => cases hopened.made.symm.trans hmade
    | settled => rfl
  · rw [heq]
    rfl

/-- Where the report leaves no entry unattempted, every slot was decided. -/
theorem Course.isSome_of_attempted (c : Course options plan schedule image slots s report s')
    (hattempted : ∀ r ∈ report.entries, r.outcome ≠ .notAttempted) :
    ∀ slot ∈ c.assigned, slot.outcome.isSome = true := by
  have hreport : report.entries = c.finished.map (·.report) := congrArg Report.entries c.report
  rw [hreport] at hattempted
  intro slot hslot
  obtain ⟨slot', hslot', rfl | ⟨hmade, -⟩⟩ := exists_of_forall₂ c.finishes.flip hslot
  · cases hout : slot'.outcome with
    | some o => rfl
    | none =>
      refine absurd ?_ (hattempted _ (List.mem_map_of_mem hslot'))
      rw [Slot.report, hout]
      rfl
  · have hdirectory := c.directory_of_made hopened hslot hmade
    rcases mem_assignResults hslot with ⟨hwaiting, -⟩ | ⟨i, pending, hpending, rfl⟩
    · exact c.isSome_of_made hopened slot hwaiting hmade
    · -- what is pending is no directory
      have hfile := (Slot.isPending_iff.1 (List.mem_filter.1 (List.mem_of_getElem? hpending)).2).1
      cases hfile.symm.trans hdirectory

/-- **What a run notes.** Its notes account for slots that stand for the files of which the result tells. -/
theorem execute_accounts (hpaths : (entries.map (·.path)).Nodup) (hplan : plan.options = options)
    (hsizes : ∀ e ∈ entries, e.isFile = true → (image.content e).length = e.size.toNat)
    (h : plan.execute schedule image slots s = (result, s')) : ∃ notes ended, plan.Tells options s s' notes ∧
      Accounts slots ended notes ∧ StandFor result ended ∧
      ∀ report, result = .ok report → (∀ r ∈ report.entries, r.outcome ≠ .notAttempted) →
        ∀ slot ∈ ended, slot.outcome.isSome = true := by
  obtain ⟨notes, ended, htells, haccounts, hend⟩ := execute_tells hplan (map_entry_of_opened hopened ▸ hsizes) h
  refine ⟨notes, ended, htells, haccounts, ?_⟩
  obtain ⟨hnothing, err, hpass, rfl⟩ | ⟨c, rfl, cause, rfl⟩ | ⟨report, c, rfl, rfl⟩ := hend
  · exact ⟨standFor_of_failed hopened hpass haccounts hnothing, nofun⟩
  · exact ⟨c.standFor hopened hpaths cause, nofun⟩
  · refine ⟨c.standFor hopened hpaths, ?_⟩
    rintro _ ⟨⟩
    exact c.isSome_of_attempted hopened

/-! ## Rejected entries -/

/-- The entries that are rejected before the passes: their paths are not accepted. -/
def Entry.rejected (root : Path) (entries : List Entry) : List Entry := entries.filter fun e => !acceptsPath root e.path

/-- The slots that have an outcome at the start are those of rejected entries. -/
theorem paths_decided_opened (root' : Path) :
    (decided slots).map (·.1) = (Entry.rejected root' entries).map (·.path) := by
  induction hopened with
  | nil => rfl
  | @cons e slot _ rest hslot _ ih =>
    rw [decided_cons, List.map_append, ih, Entry.rejected, Entry.rejected, List.filter_cons, acceptsPath_eq root' root]
    obtain ⟨p, hp, rfl⟩ | ⟨err, herr, rfl⟩ := hslot
    · rw [decided_of_open rfl, acceptsPath, hp]
      rfl
    · rw [decided_of_isSome rfl, acceptsPath, herr]
      rfl

end Opened

/-! ## Extraction -/

/-- What the listener of a run is told accounts for the selected entries. The calls are numbered without gaps after the
    entries that were rejected, and are about different ones of the others; they are all if the run ends in a report
    that leaves nothing unattempted. A single worker tells in order, and tells of the bytes of those files in place of
    which it told so far. -/
structure ProgressAccounts (options : ExtractOptions) (root : Path) (selected : List Entry)
    (result : Except ExtractError Report) (calls : List Progress) : Prop where
  numbers : (calls.map (·.entriesDone)).Perm (List.range' ((Entry.rejected root selected).length + 1) calls.length)
  different : (calls.map (·.current)).Subperm ((selected.filter fun e => acceptsPath root e.path).map (·.path))
  within : (Entry.rejected root selected).length + calls.length ≤ selected.length
  totals : ∀ p ∈ calls, p.entriesTotal = selected.length ∧
    p.bytesTotal = Entry.totalBytes (selected.filter (·.isFile)) ∧ p.bytesWritten ≤ p.bytesTotal
  complete : ∀ report, result = .ok report → (∀ r ∈ report.entries, r.outcome ≠ .notAttempted) →
    options.onProgress.isSome = true → (Entry.rejected root selected).length + calls.length = selected.length
  ordered : options.workers ≤ 1 →
    calls.map (·.entriesDone) = List.range' ((Entry.rejected root selected).length + 1) calls.length
  bytes : options.workers ≤ 1 → ∀ (i : Nat) (p : Progress), calls[i]? = some p →
    p.bytesWritten = Entry.totalBytes (selected.filter fun e =>
      e.isFile && tellsWritten result e.path && ((calls.take (i + 1)).map (·.current)).contains e.path)

theorem ProgressAccounts.of_silence (root : Path) (selected : List Entry)
    (hsilent : ∀ report, result = .ok report → options.onProgress.isSome = false) :
    ProgressAccounts options root selected result [] where
  numbers := .refl _
  different := List.nil_subperm
  within := List.length_filter_le _ _
  totals := nofun
  complete := fun report hreport _ hlistener => absurd ((hsilent report hreport).symm.trans hlistener) nofun
  ordered := fun _ => rfl
  bytes := fun _ _ _ hp => nomatch hp

section Told

variable {options : ExtractOptions} {fs : FileSystem} {s : RunState}
  (hopened : List.Forall₂ (fun e slot => Slot.Opened root e slot) entries slots)
  (htells : plan.Tells options (.start fs options) s notes) (haccounts : Accounts slots ended notes)

include hopened haccounts

/-- The entries that were rejected and the notes are together those that were decided. -/
theorem length_decided (root' : Path) :
    (Entry.rejected root' entries).length + notes.length = (decided ended).length := by
  have hstart := congrArg List.length (paths_decided_opened hopened root')
  rw [List.length_map, List.length_map] at hstart
  rw [← hstart, ← haccounts.accounts.length_eq, List.length_append, List.length_map]

/-- The notes are about different entries that were not rejected. -/
theorem paths_notes_subperm (root' : Path) :
    (notes.map (·.path)).Subperm ((entries.filter fun e => acceptsPath root' e.path).map (·.path)) := by
  have hdecided : ((Entry.rejected root' entries).map (·.path) ++ notes.map (·.path)).Perm
      ((decided ended).map (·.1)) := by
    have hperm := haccounts.accounts.map (·.1)
    rw [List.map_append, paths_decided_opened hopened root', List.map_map] at hperm
    exact hperm
  have hended : ended.map (·.entry.path) = entries.map (·.path) := by
    rw [haccounts.paths_eq, ← map_entry_of_opened hopened, List.map_map]
    rfl
  have hparts : ((Entry.rejected root' entries).map (·.path) ++
      (entries.filter fun e => acceptsPath root' e.path).map (·.path)).Perm (entries.map (·.path)) := by
    rw [← List.map_append]
    exact (List.perm_append_comm.trans (List.filter_append_perm _ _)).map _
  refine (List.subperm_append_left _).1 (hdecided.subperm.trans (List.Subperm.trans ?_ hparts.symm.subperm))
  exact hended ▸ (paths_decided_sublist ended).subperm

section Calls

variable {calls : List Progress} (hmixes : options.Mixes calls (notes.map plan.progress))

include htells hmixes

omit hopened haccounts in
/-- The calls count on from the entries that were rejected. -/
theorem mixes_entriesDone :
    options.Mixes (calls.map (·.entriesDone)) (List.range' (plan.rejected + 1) calls.length) := by
  have hlength : calls.length = notes.length := by simpa using hmixes.1.length_eq
  have hdone : (notes.map plan.progress).map (·.entriesDone) = (notes.map (·.done)).map (plan.rejected + ·) := by
    rw [List.map_map, List.map_map]
    rfl
  have hnumbers := htells.numbers.map (plan.rejected + ·)
  rw [List.map_add_range', ← hlength] at hnumbers
  exact ((hmixes.map (·.entriesDone)).trans (.of_eq hdone)).trans hnumbers

/-- A single worker tells of the bytes of those files of which it told so far. -/
theorem bytesWritten_eq_of_told (hpaths : (entries.map (·.path)).Nodup) (hstand : StandFor result ended)
    (hworkers : options.workers ≤ 1) {i : Nat} {p : Progress} (hp : calls[i]? = some p) :
    p.bytesWritten = Entry.totalBytes (entries.filter fun e =>
      e.isFile && tellsWritten result e.path && ((calls.take (i + 1)).map (·.current)).contains e.path) := by
  have hentries : ended.map (·.entry) = entries := haccounts.entries.trans (map_entry_of_opened hopened)
  have hslots : (slots.map (·.entry.path)).Nodup := by
    rw [← map_entry_of_opened hopened, List.map_map] at hpaths
    exact hpaths
  -- what was told first was noted first
  have hfirst : (calls.take (i + 1)).map (·.current) = (notes.take (i + 1)).map (·.path) := by
    rw [hmixes.2 hworkers, ← List.map_take, List.map_map]
    rfl
  rw [hmixes.2 hworkers, List.getElem?_map] at hp
  obtain ⟨n, hn, rfl⟩ := Option.map_eq_some_iff.1 hp
  rw [hfirst, ← hentries, ← hstand.sum_filter fun path => ((notes.take (i + 1)).map (·.path)).contains path,
    ← haccounts.sum_take hslots]
  exact (htells.bytes_eq hworkers hn).trans (Nat.zero_add _)

end Calls

include htells in
/-- **What the notes account for, the listener is told.** -/
theorem progressAccounts_of_tells {root' : Path} (hpaths : (entries.map (·.path)).Nodup)
    (hrejected : plan.rejected = (Entry.rejected root' entries).length) (htotal : plan.entriesTotal = entries.length)
    (hstand : StandFor result ended) (hdecided : ∀ report, result = .ok report →
      (∀ r ∈ report.entries, r.outcome ≠ .notAttempted) → ∀ slot ∈ ended, slot.outcome.isSome = true)
    (hcounts : s.CountsUpTo options fs (Entry.totalBytes (entries.filter (·.isFile)))) :
    ProgressAccounts options root' entries result s.announced := by
  cases hlistener : options.onProgress.isSome with
  | false =>
    rw [htells.announced_of_none hlistener]
    exact .of_silence root' entries fun _ _ => hlistener
  | true =>
    obtain ⟨calls, hcalls, hmixes⟩ := htells.announced hlistener
    have hannounced : s.announced = calls := hcalls
    have hnumbers := mixes_entriesDone htells hmixes
    have hentries : ended.map (·.entry) = entries := haccounts.entries.trans (map_entry_of_opened hopened)
    have hlength : ended.length = entries.length := by simpa using congrArg List.length hentries
    have hnotes : calls.length = notes.length := by simpa using hmixes.1.length_eq
    have hsum := length_decided hopened haccounts root'
    rw [hannounced]
    refine ⟨hrejected ▸ hnumbers.1, ?_, ?_, ?_, ?_, fun hworkers => hrejected ▸ hnumbers.2 hworkers,
      fun hworkers i p hp => bytesWritten_eq_of_told hopened htells haccounts hmixes hpaths hstand hworkers hp⟩
    · have hcurrent : (calls.map (·.current)).Perm (notes.map (·.path)) := by
        have hpath := hmixes.1.map (·.current)
        rw [List.map_map] at hpath
        exact hpath
      exact hcurrent.subperm.trans (paths_notes_subperm hopened haccounts root')
    · calc (Entry.rejected root' entries).length + calls.length
          = (decided ended).length := hnotes ▸ hsum
        _ ≤ ended.length := by rw [decided, List.length_map]; exact List.length_filter_le _ _
        _ = entries.length := hlength
    · intro p hp
      obtain ⟨n, -, rfl⟩ := List.mem_map.1 (hmixes.1.mem_iff.1 hp)
      obtain ⟨hbytes, hle⟩ := hcounts.told _ (hannounced ▸ hp)
      exact ⟨htotal, hbytes, hbytes ▸ hle⟩
    · intro report hreport hattempted _
      have hall : decided ended = ended.map (·.account) := by
        rw [decided, List.filter_eq_self.2 (hdecided report hreport hattempted)]
      rw [hnotes, hsum, hall, List.length_map, hlength]

end Told

/-- **A run accounts for its progress.** Whatever image was parsed, however the workers of a run take turns and whatever
    its listener does, the calls to the listener count on from the entries that were rejected, each number once and at
    most to the total, each call for another entry, and none tells of more bytes than there are. They come to the total
    if the run ends in a report in which every entry was attempted. A single worker tells in order of the count, and
    each time of the sizes of the files that were created or overwritten so far. -/
theorem extract_accounts (options : ExtractOptions) (schedule : List Nat) {bytes : Bytes} {image : Image}
    (hparse : Image.parse bytes = .ok image) (target : Option Path) (fs : FileSystem)
    {result : Except ExtractError Report} {s : RunState}
    (h : extract options schedule image target (.start fs options) = (result, s)) (root : Path) :
    ProgressAccounts options root (image.manifest.select options.filter) result s.announced := by
  have hcounts := extract_countsUpTo hparse h
  obtain ⟨err, hprepare, rfl⟩ | ⟨plan, slots, t, hprepare, hplan, -, hslots, -, hexecute⟩ := extract_cases h
  · -- nothing was told before the error
    have htells := countsNothing_prepare.tells ⟨⟨[]⟩, ⟨[]⟩, options, 0, 0, 0⟩ hprepare
    have hsilent : s.announced = [] := by
      cases hlistener : options.onProgress.isSome with
      | false => exact htells.announced_of_none hlistener
      | true =>
        obtain ⟨calls, hcalls, hmixes⟩ := htells.announced hlistener
        exact hcalls.trans (List.perm_nil.1 hmixes.1)
    rw [hsilent]
    exact .of_silence root _ nofun
  · have hopened := slotsFor_opened hslots
    have hpaths : ((image.manifest.select options.filter).map (·.path)).Nodup := (Image.inOrder_select hparse).distinct
    obtain ⟨notes, ended, htells, haccounts, hstand, hdecided⟩ := execute_accounts hopened hpaths hplan
      (fun e he => Image.length_content hparse ((image.manifest.select_sublist _).subset he)) hexecute
    have hprepared := (countsNothing_prepare.tells plan hprepare).trans htells
    have hrejected : plan.rejected = (Entry.rejected root (image.manifest.select options.filter)).length := by
      have hlength := congrArg List.length (paths_decided_opened hopened root)
      rw [decided, List.length_map, List.length_map, List.length_map] at hlength
      obtain ⟨root', realRoot, -, -, rfl, -⟩ := run_prepare_eq_ok hprepare
      exact hlength
    have htotal : plan.entriesTotal = (image.manifest.select options.filter).length := by
      have hlength := congrArg List.length (map_entry_of_opened hopened)
      rw [List.length_map] at hlength
      obtain ⟨root', realRoot, -, -, rfl, -⟩ := run_prepare_eq_ok hprepare
      exact hlength
    exact progressAccounts_of_tells hopened hprepared haccounts hpaths hrejected htotal hstand hdecided hcounts

/-- One entry is rejected. When the first of two workers has counted its file, the second overtakes it, and the calls
    come in another order than the counts. -/
theorem extract_accounts_overtaken :
    let options : ExtractOptions := { workers := 2, strict := false, onProgress := some fun _ fs => (fs, false) }
    let m : Manifest := ⟨[.directory "d" none, .file "a" 2 1 (.of [122]) none, .file "d/b" 0 2 (.of [120, 121]) none,
      .file "x\\y" 3 0 (.of []) none]⟩
    let image : Image := .written m [120, 121, 122, 123]
    let schedule := List.replicate 11 0 ++ List.replicate 20 1
    Image.parse image.source = .ok image ∧
      ∃ result s,
        extract options schedule image (some (.ofString "/out")) (.start (rootWith []) options) = (result, s) ∧
        s.announced.map (fun p => (p.entriesDone, p.bytesWritten)) = [(2, 0), (4, 3), (3, 1)] ∧
        ProgressAccounts options ⟨[]⟩ m.entries result s.announced := by
  intro options m image schedule
  have hvalid : ∀ d d' d'' : Digest, Manifest.validate ⟨[.directory "d" none, .file "a" 2 1 d none,
      .file "d/b" 0 2 d' none, .file "x\\y" 3 0 d'' none]⟩ 4 = .ok () := by
    intro d d' d''
    cbv
  have hparse : Image.parse image.source = .ok image :=
    Image.parse_written (by decide) (by decide) (hvalid _ _ _) (by decide)
  have htold : (extract options schedule image (some (.ofString "/out")) (.start (rootWith []) options)).2.announced.map
      (fun p => (p.entriesDone, p.bytesWritten)) = [(2, 0), (4, 3), (3, 1)] := by decide +kernel
  rcases hrun : extract options schedule image (some (.ofString "/out")) (.start (rootWith []) options) with ⟨result, s⟩
  rw [hrun] at htold
  exact ⟨hparse, result, s, rfl, htold, extract_accounts options schedule hparse _ (rootWith []) hrun ⟨[]⟩⟩

end TreeImage
