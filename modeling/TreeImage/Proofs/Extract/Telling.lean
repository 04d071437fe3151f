import TreeImage.Proofs.Extract.FileResults
import TreeImage.Proofs.Extract.Progress
import TreeImage.Proofs.Extract.Run

set_option autoImplicit false

/-! # What the passes tell

Each pass over the slots settles some that were open, and notes each of them once (`Accounts`). In the pool the notes
are those of the jobs: one job is done for every result that is handed out, in whatever order the workers come to them,
and by one worker in order (`tells_files`). So the notes of a run up to its files account for all that it decided
(`Passage.tells`). -/

namespace TreeImage

variable {options : ExtractOptions} {plan : RunPlan} {image : Image} {schedule : List Nat} {s s' : RunState}
  {slot : Slot} {slots pending rest : List Slot} {results : List (Option Outcome)} {o : Outcome} {as : List Outcome}
  {result : Except ExtractError Report}

/-! ## The pool -/

theorem Slot.isPending_iff :
    slot.isPending = true ↔ slot.entry.isFile = true ∧ slot.outcome = none ∧ slot.destination ≠ none := by
  rw [Slot.isPending, Bool.and_eq_true, Bool.and_eq_true, Option.isNone_iff_eq_none, Option.isSome_iff_ne_none,
    and_assoc]

theorem destination_of_pending (h : slot ∈ slots.filter (·.isPending)) : slot.destination ≠ none :=
  (Slot.isPending_iff.1 (List.mem_filter.1 h).2).2.2

/-- The run of the pool over the files that are pending. -/
abbrev FilesRun (options : ExtractOptions) (plan : RunPlan) (image : Image) (pending : List Slot) (s : RunState)
    (looks : List (Look Session)) (jobs : List (JobDone Session Outcome)) (log : List (Exchange Session))
    (results : List (Option Outcome)) (s' : RunState) : Prop :=
  PoolRun (RunState.handler options) pending.length Session.isHalted (plan.fileJob image pending) s looks jobs log
    results s'

theorem exists_filesRun (hplan : plan.options = options)
    (h : plan.files schedule image pending s = (results, s')) :
    ∃ looks jobs log, FilesRun options plan image pending s looks jobs log results s' := by
  subst hplan
  obtain ⟨looks, jobs, log, hrun⟩ := runBounded_ends (h := RunState.handler plan.options) schedule pending.length
    plan.options.workers Session.isHalted (plan.fileJob image pending) s
  rw [RunPlan.files] at h
  rw [h] at hrun
  exact ⟨looks, jobs, log, hrun⟩

theorem Passage.filesRun (c : Passage options plan schedule image slots s) (hplan : plan.options = options) :
    ∃ looks jobs log, FilesRun options plan image (c.waiting.filter (·.isPending)) c.atFiles looks jobs log c.results
      c.afterFiles :=
  exists_filesRun hplan c.files

/-! ## Results -/

/-- The files that have a result, with what became of them. -/
def filesDone (pending : List Slot) (results : List (Option Outcome)) : List Slot :=
  (pending.zip results).filterMap fun x => x.2.map fun o => { x.1 with outcome := some o }

@[simp] theorem filesDone_nil (results : List (Option Outcome)) : filesDone [] results = [] := rfl

@[simp] theorem filesDone_no_results (pending : List Slot) : filesDone pending [] = [] := by
  rw [filesDone, List.zip_nil_right]
  rfl

@[simp] theorem filesDone_none : filesDone (slot :: rest) (none :: results) = filesDone rest results := rfl

@[simp] theorem filesDone_some :
    filesDone (slot :: rest) (some o :: results) = { slot with outcome := some o } :: filesDone rest results := rfl

/-- Whoever has no result yet is not handed anything. -/
theorem filesDone_range (pending : List Slot) (as : List Outcome) :
    filesDone pending ((List.range pending.length).map (as[·]?)) = filesDone pending (as.map some) := by
  induction pending generalizing as with
  | nil => rfl
  | cons slot rest ih =>
    rw [List.length_cons, List.range_succ_eq_map, List.map_cons, List.map_map]
    cases as with
    | nil => exact (ih []).trans (by simp)
    | cons a as => exact congrArg (_ :: ·) (ih as)

theorem filesDone_concat (h : pending[as.length]? = some slot) : filesDone pending ((as ++ [o]).map some) =
    filesDone pending (as.map some) ++ [{ slot with outcome := some o }] := by
  induction as generalizing pending with
  | nil =>
    cases pending with
    | nil => cases h
    | cons head rest =>
      cases h
      simp
  | cons a as ih =>
    cases pending with
    | nil => cases h
    | cons head rest => exact congrArg (_ :: ·) (ih h)

/-- The account of a file with this number, if it ends like this. -/
def accountAt (pending : List Slot) (i : Nat) (o : Outcome) : String × Nat :=
  pending[i]?.elim ("", 0) fun slot => Slot.account { slot with outcome := some o }

theorem map_account_filesDone (hlength : results.length = pending.length) :
    (filesDone pending results).map (·.account) =
      (List.range pending.length).filterMap fun i => results[i]?.join.map (accountAt pending i) := by
  induction pending generalizing results with
  | nil => rfl
  | cons slot rest ih =>
    cases results with
    | nil => cases hlength
    | cons r results =>
      have hrest := ih (Nat.succ.inj hlength)
      rw [List.length_cons, List.range_succ_eq_map, List.filterMap_cons, List.filterMap_map]
      cases r with
      | none => exact hrest
      | some o => exact congrArg (_ :: ·) hrest

/-- Handing out results decides the slots that have one. -/
theorem decided_assignResults (slots : List Slot) (results : List (Option Outcome)) :
    (decided slots ++ (filesDone (slots.filter (·.isPending)) results).map (·.account)).Perm
      (decided (RunPlan.assignResults slots results)) := by
  induction slots generalizing results with
  | nil => exact .refl _
  | cons slot rest ih =>
    rw [decided_cons, RunPlan.assignResults]
    cases hpending : slot.isPending with
    | false =>
      rw [if_neg Bool.false_ne_true, List.filter_cons_of_neg (by rw [hpending]; exact Bool.false_ne_true),
        decided_cons slot (RunPlan.assignResults rest results), List.append_assoc]
      exact (ih results).append_left _
    | true =>
      rw [if_pos rfl, List.filter_cons_of_pos hpending, decided_of_open (Slot.isPending_iff.1 hpending).2.1,
        List.nil_append, decided_cons]
      rcases results with _ | ⟨_ | o, results⟩
      · have hnone := ih []
        rw [filesDone_no_results] at hnone ⊢
        exact hnone
      · exact ih results
      · exact List.perm_middle.trans ((ih results).cons _)

/-! ## What the pool tells -/

section Pool

variable {looks : List (Look Session)} {jobs : List (JobDone Session Outcome)} {log : List (Exchange Session)}
  (hpending : ∀ slot ∈ pending, slot.destination ≠ none)

include hpending

/-- A job is about one of the files. -/
theorem exists_placeFile_of_job (hrun : FilesRun options plan image pending s looks jobs log results s')
    {j : JobDone Session Outcome} (hj : j ∈ jobs) :
    ∃ slot p, pending[j.index]? = some slot ∧ slot.destination = some p ∧
      (plan.placeFile image p slot.entry).Ends (RunState.handler options) j.log j.result := by
  obtain ⟨n, hcount, hperm, -⟩ := hrun.numbers
  have hlt : j.index < pending.length :=
    Nat.lt_of_lt_of_le (List.mem_range.1 (hperm.mem_iff.1 (List.mem_map_of_mem hj))) hcount
  have hslot : pending[j.index]? = some pending[j.index] := List.getElem?_eq_getElem hlt
  obtain ⟨p, hp⟩ := Option.ne_none_iff_exists'.1 (hpending _ (List.getElem_mem hlt))
  have hends := hrun.worked j hj
  rw [fileJob_eq hslot hp] at hends
  exact ⟨_, p, hslot, hp, hends⟩

variable (hsizes : ∀ slot ∈ pending,
  slot.entry.isFile = true ∧ (image.content slot.entry).length = slot.entry.size.toNat)

include hsizes

omit hpending in
/-- A pending file is noted with the account that its outcome gives it. -/
theorem notes_pending {p : Path} (hslot : slot ∈ pending) : (plan.placeFile image p slot.entry).Notes options plan
    fun o notes => notes.map (·.account) = [Slot.account { slot with outcome := some o }] := by
  refine notes_placeFile.imp ?_
  rintro o _ ⟨done, bytes, rfl⟩
  obtain ⟨hfile, hsize⟩ := hsizes slot hslot
  simp [Slot.account, Slot.written, hfile, hsize]

/-- **The notes of a pool account for its results**, however the workers take turns. -/
theorem tells_filesRun (hrun : FilesRun options plan image pending s looks jobs log results s') :
    ∃ notes : List Note, (counting log).Perm (notes.flatMap (·.exchanges plan)) ∧
      (notes.map (·.account)).Perm ((filesDone pending results).map (·.account)) := by
  have hlooks : looks.flatMap (fun l => counting l.log) = [] :=
    List.flatMap_eq_nil_iff.2 fun l hl => countsNothing_isHalted.counting_eq_nil (hrun.looked l hl)
  obtain ⟨notes, hnoted, haccounts⟩ : ∃ notes : List Note, Noted plan (jobs.flatMap (·.log)) notes ∧
      notes.map (·.account) = jobs.map fun j => accountAt pending j.index j.result := by
    refine exists_noted_flatMap fun j hj => ?_
    obtain ⟨slot, p, hslot, -, hends⟩ := exists_placeFile_of_job hpending hrun hj
    obtain ⟨notes, hnoted, haccount⟩ := notes_pending hsizes (List.mem_of_getElem? hslot) _ _ hends
    exact ⟨notes, hnoted, by rw [haccount, accountAt, hslot]; rfl⟩
  refine ⟨notes, ?_, ?_⟩
  · have hsaid : counting (looks.flatMap (·.log) ++ jobs.flatMap (·.log)) = notes.flatMap (·.exchanges plan) := by
      rw [counting_append, ← hnoted]
      exact (congrArg (· ++ _) ((List.filter_flatMap ..).trans hlooks)).trans (List.nil_append _)
    exact hsaid ▸ hrun.said.filter _
  · rw [haccounts, map_account_filesDone hrun.length_results]
    exact hrun.perm_results (accountAt pending)

/-- One worker takes the notes of its jobs in order. -/
theorem tells_inOrder (hworkers : plan.options.workers ≤ 1) (schedule : List Nat) (s : RunState) :
    ∃ notes, plan.Tells plan.options s (plan.files schedule image pending s).2 notes ∧
      notes.map (·.account) = (filesDone pending (plan.files schedule image pending s).1).map (·.account) := by
  have hkept : KeptInOrder (RunState.handler plan.options) Session.isHalted (plan.fileJob image pending) pending.length
      fun as t => ∃ notes, plan.Tells plan.options s t notes ∧
        notes.map (·.account) = (filesDone pending (as.map some)).map (·.account) := by
    constructor
    · rintro as t ⟨notes, htells, haccounts⟩
      have hlook : plan.Tells plan.options t (Session.isHalted.run (RunState.handler plan.options) t).2 [] :=
        countsNothing_isHalted.tells plan rfl
      exact ⟨notes, List.append_nil notes ▸ htells.trans hlook, haccounts⟩
    · rintro as t ⟨notes, htells, haccounts⟩ hlt -
      have hslot : pending[as.length]? = some pending[as.length] := List.getElem?_eq_getElem hlt
      obtain ⟨p, hp⟩ := Option.ne_none_iff_exists'.1 (hpending _ (List.getElem_mem hlt))
      rw [fileJob_eq hslot hp]
      obtain ⟨more, hmore, haccount⟩ := (notes_pending hsizes (List.getElem_mem hlt)).tells (s := t) rfl
      refine ⟨notes ++ more, htells.trans hmore, ?_⟩
      rw [List.map_append, haccounts, haccount, filesDone_concat hslot, List.map_append]
      rfl
  obtain ⟨as, hend, -, hresults, -⟩ := runBounded_in_order hkept schedule hworkers
    ⟨[], .of_noted .nil rfl, by simp⟩
  obtain ⟨notes, htells, haccounts⟩ := hend
  refine ⟨notes, htells, ?_⟩
  rw [haccounts, RunPlan.files, hresults, filesDone_range]

/-- **The pool tells of every result once**, and one worker tells of them in order. -/
theorem tells_files (hplan : plan.options = options) (h : plan.files schedule image pending s = (results, s')) :
    ∃ notes, plan.Tells options s s' notes ∧
      (notes.map (·.account)).Perm ((filesDone pending results).map (·.account)) := by
  subst hplan
  by_cases hworkers : plan.options.workers ≤ 1
  · obtain ⟨notes, htells, haccounts⟩ := tells_inOrder hpending hsizes hworkers schedule s
    rw [h] at htells haccounts
    exact ⟨notes, htells, .of_eq haccounts⟩
  · obtain ⟨looks, jobs, log, hrun⟩ := exists_filesRun rfl h
    obtain ⟨notes, hcounting, haccounts⟩ := tells_filesRun hpending hsizes hrun
    exact ⟨notes, ⟨log, hrun.leads, hcounting, fun hone => absurd hone hworkers⟩, haccounts⟩

end Pool

/-! ## The passes -/

section Passage

variable (c : Passage options plan schedule image slots s)

/-- The passes over directories, and the blocking of files, put no bytes in place. -/
theorem Passage.tells_waiting : ∃ notes, plan.Tells options s c.atFiles notes ∧ NothingWritten notes ∧
    Accounts slots c.waiting notes := by
  obtain ⟨first, hfirst, hnothing, placed, hplaced, hended⟩ := (notes_directoryPass []).tells c.pass
  obtain rfl : c.placed = placed := hended _ _ rfl
  obtain ⟨second, hsecond, hnothing', hblocked⟩ := (notes_blockFiles c.failures).tells c.block
  exact ⟨first ++ second, hfirst.trans hsecond, hnothing.append hnothing', hplaced.trans hblocked⟩

/-- The passes before the pool do not change what entries the slots are for. -/
theorem Passage.entries_waiting : c.waiting.map (·.entry) = slots.map (·.entry) := by
  obtain ⟨notes, -, -, haccounts⟩ := c.tells_waiting
  exact haccounts.entries

variable (hsizes : ∀ e ∈ slots.map (·.entry), e.isFile = true → (image.content e).length = e.size.toNat)

include hsizes

theorem Passage.length_pending : ∀ slot ∈ c.waiting.filter (·.isPending),
    slot.entry.isFile = true ∧ (image.content slot.entry).length = slot.entry.size.toNat := by
  intro slot hslot
  obtain ⟨hwaiting, hpending⟩ := List.mem_filter.1 hslot
  have hfile := (Slot.isPending_iff.1 hpending).1
  exact ⟨hfile, hsizes _ (c.entries_waiting ▸ List.mem_map_of_mem hwaiting) hfile⟩

/-- **The notes of the passes account for all that they decided.** -/
theorem Passage.tells (hplan : plan.options = options) : ∃ notes, plan.Tells options s c.afterFiles notes ∧
    Accounts slots (RunPlan.assignResults c.waiting c.results) notes := by
  obtain ⟨before, hbefore, -, hwaiting⟩ := c.tells_waiting
  obtain ⟨notes, hnotes, haccounts⟩ :=
    tells_files (fun _ => destination_of_pending) (c.length_pending hsizes) hplan c.files
  refine ⟨before ++ notes, hbefore.trans hnotes, hwaiting.trans ⟨?_, ?_⟩⟩
  · exact map_entry_assignResults c.waiting c.results
  · exact (haccounts.append_left _).trans (decided_assignResults c.waiting c.results)

end Passage

/-- **How a run ends, and what its notes account for:** the directory pass fails, or something was fatal in the pool, or
    the run takes its course to a report. -/
theorem execute_tells (hplan : plan.options = options)
    (hsizes : ∀ e ∈ slots.map (·.entry), e.isFile = true → (image.content e).length = e.size.toNat)
    (h : plan.execute schedule image slots s = (result, s')) :
    ∃ notes ended, plan.Tells options s s' notes ∧ Accounts slots ended notes ∧
      ((NothingWritten notes ∧ ∃ err,
          (plan.directoryPass [] slots).run (RunState.handler options) s = (.error err, s') ∧ result = .error err) ∨
        (∃ c : Passage options plan schedule image slots s, ended = RunPlan.assignResults c.waiting c.results ∧
          ∃ cause, result =
            .error (.aborted cause (RunPlan.committedPaths (c.waiting.filter (·.isPending)) c.results))) ∨
        ∃ report, ∃ c : Course options plan schedule image slots s report s', result = .ok report ∧
          ended = RunPlan.assignResults c.waiting c.results) := by
  obtain ⟨err, hpass, rfl⟩ | ⟨c, hend⟩ := RunPlan.execute_cases hplan h
  · obtain ⟨notes, htells, hnothing, ended, haccounts, -⟩ := (notes_directoryPass []).tells hpass
    exact ⟨notes, ended, htells, haccounts, .inl ⟨hnothing, err, hpass, rfl⟩⟩
  · obtain ⟨notes, htells, haccounts⟩ := c.tells hsizes hplan
    obtain ⟨cause, -, rfl, rfl⟩ | ⟨hfatal, report, rfl, hconclude⟩ := hend
    · exact ⟨notes, _, htells, haccounts, .inr (.inl ⟨c, rfl, cause, rfl⟩)⟩
    · obtain ⟨c', rfl⟩ := c.exists_course hfatal hconclude
      have hlast := countsNothing_conclude.tells plan hconclude
      exact ⟨notes, _, List.append_nil notes ▸ htells.trans hlast, haccounts, .inr (.inr ⟨report, c', rfl, rfl⟩)⟩

end TreeImage
