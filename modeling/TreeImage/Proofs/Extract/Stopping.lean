import TreeImage.Proofs.Extract.Selection
import TreeImage.Proofs.Extract.Tally
import TreeImage.Proofs.Program.InOrder

set_option autoImplicit false

/-! # Stopping at the first error

A run of one worker that is to stop at the first error starts with no entry after one that failed in a pass. The stop
is raised with the failure, and the next look finds it. -/

namespace TreeImage

variable {options : ExtractOptions} {plan : RunPlan} {image : Image} {schedule : List Nat} {s s' t : RunState}
  {failures failures' : RunPlan.Failures} {root : Path} {e : Entry} {entries : List Entry} {slot slot' : Slot}
  {slots slots' all pending : List Slot} {results : List (Option Outcome)} {report : Report}

/-! ## The directory pass -/

/-- Where the run is halted, the directory pass leaves everything as it is. -/
theorem DirectoryRun.eq_of_halts (h : DirectoryRun options plan failures slots s failures' slots' s')
    (hs : s.Halts options) : slots' = slots := by
  induction h with
  | nil => rfl
  | halted => rfl
  | cons hstep _ ih =>
    have hgoes : ∀ {s t : RunState}, s.Halts options →
        Session.isHalted.run (RunState.handler options) s ≠ (false, t) := by
      intro s t hs hlook
      obtain ⟨log, hleads, -⟩ := exists_leads_of_look hlook
      exact Bool.false_ne_true ((run_isHalted_iff hlook).1.1 (hs.leads hleads))
    cases hstep with
    | file => rw [ih hs]
    | decided => rw [ih hs]
    | unplaced _ _ _ hlook => exact absurd hlook (hgoes hs)
    | placed _ _ _ hlook => exact absurd hlook (hgoes hs)

/-- A slot of a directory that has somewhere to go. -/
def Slot.IsPlaced (slot : Slot) : Prop := slot.entry.isFile = false ∧ slot.destination ≠ none

/-- No slot that has somewhere to go lies in one of these directories. -/
def Harmless (failures : RunPlan.Failures) (slots : List Slot) : Prop :=
  ∀ q kind, failures.lookup q = some kind → ∀ slot ∈ slots, slot.destination ≠ none → slot.entry.parent? ≠ some q

theorem Harmless.blocked? (h : Harmless failures slots) (hslot : slot ∈ slots) (hplaced : slot.destination ≠ none) :
    RunPlan.blocked? failures slot.entry = none := by
  rw [RunPlan.blocked?]
  split
  · rfl
  · next parent hparent =>
    rw [Option.map_eq_none_iff]
    cases hlookup : failures.lookup parent with
    | none => rfl
    | some kind => exact absurd hparent (h parent kind hlookup slot hslot hplaced)

theorem Harmless.note (h : Harmless failures slots) (hslot : slot.destination = none)
    (hclosed : ∀ y ∈ slots, y.destination ≠ none → y.entry.parent? = some slot.entry.path → slot.destination ≠ none)
    (o : Outcome) : Harmless (failures.note slot.entry o) slots := by
  unfold RunPlan.Failures.note
  split
  · next kind message =>
    intro q kind' hlookup y hy hplaced
    rw [List.lookup_cons] at hlookup
    split at hlookup
    · next heq =>
      rw [beq_iff_eq.1 heq]
      exact fun hparent => hclosed y hy hplaced hparent hslot
    · exact h q kind' hlookup y hy hplaced
  · exact h

/-- A directory that fails stops the run. Otherwise nothing lies in those that failed so far. -/
theorem DirectoryStep.stops (h : DirectoryStep options plan failures slot s failures' slot' t)
    (hfirst : plan.options.stopOnFirstError = true) (hopen : slot.destination ≠ none → slot.outcome = none)
    (hclosed : ∀ y ∈ all, y.destination ≠ none → y.entry.parent? = some slot.entry.path → slot.destination ≠ none)
    (hslot : slot ∈ all) (hharmless : Harmless failures all) :
    t.stopped = true ∨ Harmless failures' all ∧ ¬(slot'.IsPlaced ∧ slot'.hasFailed = true) := by
  cases h with
  | file hfile => exact .inr ⟨hharmless, fun ⟨⟨hdirectory, _⟩, _⟩ => absurd (hfile.symm.trans hdirectory) nofun⟩
  | decided _ ho =>
    have hrejected : slot.destination = none := by
      by_contra hplaced
      exact absurd (ho.symm.trans (hopen hplaced)) nofun
    exact .inr ⟨hharmless.note hrejected hclosed _, fun ⟨⟨_, hplaced⟩, _⟩ => hplaced hrejected⟩
  | unplaced _ _ hnowhere => exact .inr ⟨hharmless, fun ⟨⟨_, hplaced⟩, _⟩ => hplaced hnowhere⟩
  | @placed _ _ p o made log log' _ _ hp hlook hplace hdone hleads =>
    obtain ⟨-, -, hblocked | ⟨-, hmarks, -⟩⟩ := placeDirectory_ends hplace
    · have hplaced : slot.destination ≠ none := by rw [hp]; exact nofun
      rw [hharmless.blocked? hslot hplaced] at hblocked
      cases hblocked.1
    · cases hfailed : o.isFailed with
      | true =>
        rw [hfailed, hfirst] at hmarks
        refine .inl (hleads.stopped_iff.2 (.inr ?_))
        rw [marks_append, hmarks]
        exact List.mem_append_left _ (List.mem_singleton_self _)
      | false =>
        have hnote : failures.note slot.entry o = failures := by
          cases o with
          | failed kind message => cases hfailed
          | _ => rfl
        refine .inr ⟨hnote.symm ▸ hharmless, fun ⟨_, hyes⟩ => ?_⟩
        exact absurd (hyes.symm.trans hfailed) nofun

/-- What stopping means for the directory pass: after a directory that failed all others are left open, and the run is
    stopped. It is stopped too if a directory failed that others lie in. -/
theorem DirectoryRun.stops (h : DirectoryRun options plan failures slots s failures' slots' s')
    (hfirst : plan.options.stopOnFirstError = true) (hopen : ∀ slot ∈ slots, slot.destination ≠ none → slot.outcome = none)
    (hclosed : ∀ x ∈ slots, ∀ y ∈ all, y.destination ≠ none → y.entry.parent? = some x.entry.path →
      x.destination ≠ none)
    (hsub : slots ⊆ all) (hharmless : Harmless failures all) :
    slots'.Pairwise (fun x y => x.IsPlaced → x.hasFailed = true → y.IsPlaced → y.outcome = none) ∧
      (s'.stopped = true ∨ Harmless failures' all ∧ ∀ slot ∈ slots', ¬(slot.IsPlaced ∧ slot.hasFailed = true)) := by
  -- slots that the pass leaves as they were
  have hleft : ∀ {slots : List Slot}, (∀ slot ∈ slots, slot.destination ≠ none → slot.outcome = none) →
      slots.Pairwise (fun x y => x.IsPlaced → x.hasFailed = true → y.IsPlaced → y.outcome = none) ∧
        ∀ slot ∈ slots, ¬(slot.IsPlaced ∧ slot.hasFailed = true) := by
    intro slots hopen
    refine ⟨List.pairwise_of_forall_mem_list fun x _ y hy _ _ hplaced => hopen y hy hplaced.2, ?_⟩
    rintro slot hslot ⟨⟨-, hplaced⟩, hfailed⟩
    exact Slot.decided_of_hasFailed hfailed (hopen slot hslot hplaced)
  induction h with
  | nil => exact ⟨.nil, .inr ⟨hharmless, nofun⟩⟩
  | halted => exact ⟨(hleft hopen).1, .inr ⟨hharmless, (hleft hopen).2⟩⟩
  | cons hstep hrest ih =>
    obtain ⟨hopenHead, hopenRest⟩ := List.forall_mem_cons.1 hopen
    obtain ⟨hclosedHead, hclosedRest⟩ := List.forall_mem_cons.1 hclosed
    obtain ⟨hhead, hsubRest⟩ := List.cons_subset.1 hsub
    rcases hstep.stops hfirst hopenHead hclosedHead hhead hharmless with hstopped | ⟨hharmless', hfine⟩
    · obtain ⟨log, hleads, -⟩ := hrest.exists_leads
      rw [hrest.eq_of_halts (.inl hstopped)]
      exact ⟨List.pairwise_cons.2 ⟨fun y hy _ _ hplaced => hopenRest y hy hplaced.2, (hleft hopenRest).1⟩,
        .inl (hleads.stopped_iff.2 (.inl hstopped))⟩
    · obtain ⟨hpairs, hend⟩ := ih hopenRest hclosedRest hsubRest hharmless'
      exact ⟨List.pairwise_cons.2 ⟨fun y _ hplaced hfailed => absurd ⟨hplaced, hfailed⟩ hfine, hpairs⟩,
        hend.imp_right fun ⟨hharmless, hrest⟩ => ⟨hharmless, List.forall_mem_cons.2 ⟨hfine, hrest⟩⟩⟩

/-! ## The file pass -/

/-- Files in turn: only the last one can have failed, and then the run is stopped. -/
structure FilesInTurn (os : List Outcome) (s : RunState) : Prop where
  fine : os.Pairwise fun o _ => o.isFailed = false
  stopped : (∃ o ∈ os, o.isFailed = true) → s.stopped = true

theorem filesInTurn_files (schedule : List Nat) (hplan : plan.options = options)
    (hfirst : options.stopOnFirstError = true) (hpending : ∀ slot ∈ pending, slot.destination ≠ none)
    (hone : options.workers ≤ 1) (h : plan.files schedule image pending s = (results, s')) :
    ∃ os, FilesInTurn os s' ∧ results = (List.range pending.length).map (os[·]?) := by
  subst hplan
  have hkept : KeptInOrder (RunState.handler plan.options) Session.isHalted (plan.fileJob image pending) pending.length
      FilesInTurn := by
    constructor
    · intro os t hturn
      obtain ⟨log, hleads, -⟩ := exists_leads_of_look (Prod.eta _).symm
      exact ⟨hturn.fine, fun hfailed => hleads.stopped_iff.2 (.inl (hturn.stopped hfailed))⟩
    · intro os t hturn hlt hlook
      obtain ⟨u, hlook⟩ := hlook
      have hgoes : ¬t.Halts plan.options := fun ht => Bool.false_ne_true ((run_isHalted_iff hlook).1.1 ht)
      have hnone : ∀ o ∈ os, o.isFailed = false := by
        intro o ho
        rw [Bool.eq_false_iff]
        exact fun hfailed => hgoes (.inl (hturn.stopped ⟨o, ho, hfailed⟩))
      have hslot : pending[os.length]? = some pending[os.length] := List.getElem?_eq_getElem hlt
      obtain ⟨p, hp⟩ := Option.ne_none_iff_exists'.1 (hpending _ (List.getElem_mem hlt))
      obtain ⟨log, hends, hleads⟩ := Program.exists_ends (RunState.handler plan.options)
        (plan.fileJob image pending os.length) t
      rw [fileJob_eq hslot hp] at hends
      have hentered := placeFile_enters hends
      rw [← fileJob_eq hslot hp] at hentered
      refine ⟨?_, ?_⟩
      · rw [List.pairwise_append]
        exact ⟨hturn.fine, List.pairwise_singleton _ _, fun o ho _ _ => hnone o ho⟩
      · rintro ⟨o, ho, hfailed⟩
        rcases List.mem_append.1 ho with ho | ho
        · exact absurd (hfailed.symm.trans (hnone o ho)) nofun
        · rw [List.mem_singleton.1 ho] at hfailed
          exact hleads.stopped_iff.2 (.inr (hentered.stopped hfailed hfirst))
  obtain ⟨os, hturn, -, hresults, -⟩ := runBounded_in_order hkept schedule hone
    (s := s) ⟨.nil, fun ⟨_, ho, _⟩ => absurd ho List.not_mem_nil⟩
  rw [RunPlan.files] at h
  rw [h] at hturn hresults
  exact ⟨os, hturn, hresults⟩

theorem join_range_map {os : List Outcome} {n k : Nat} {o : Outcome}
    (h : ((List.range n).map (os[·]?))[k]?.join = some o) : os[k]? = some o := by
  rw [List.getElem?_map, Option.join_eq_some_iff, Option.map_eq_some_iff] at h
  obtain ⟨k', hk', hk⟩ := h
  obtain ⟨hlt, rfl⟩ := List.getElem?_eq_some_iff.1 hk'
  rwa [List.getElem_range] at hk

/-- A run that halts before its files deals with none of them. -/
theorem files_of_halts (hplan : plan.options = options) (hhalts : s.Halts options)
    (h : plan.files schedule image pending s = (results, s')) (k : Nat) : results[k]?.join = none := by
  obtain ⟨looks, jobs, log, hrun⟩ := exists_filesRun hplan h
  cases hresult : results[k]?.join with
  | none => rfl
  | some o =>
    -- a worker that does a job found the run going on before
    obtain ⟨j, hj, -⟩ := hrun.exists_job (Option.join_eq_some_iff.1 hresult)
    obtain ⟨l, hl, hgoing⟩ := hrun.started (List.ne_nil_of_mem hj)
    obtain ⟨hstopped, hcancelled⟩ := going_of_look (hgoing ▸ hrun.looked l hl)
    have hsaid : ∀ x ∈ l.log, x ∈ log := fun x hx =>
      hrun.said.mem_iff.2 (List.mem_append_left _ (List.mem_flatMap.2 ⟨l, hl, hx⟩))
    exact absurd ⟨hsaid _ hstopped, hsaid _ hcancelled⟩ (hrun.leads.not_going hhalts)

/-- Which result a slot gets: that of as many pending slots as are before it. -/
theorem getElem?_assignResults (slots : List Slot) (results : List (Option Outcome)) (i : Nat) :
    (RunPlan.assignResults slots results)[i]? = slots[i]?.map fun slot =>
      if slot.isPending then { slot with outcome := results[(slots.take i).countP (·.isPending)]?.join } else slot := by
  induction slots generalizing results i with
  | nil => rfl
  | cons slot rest ih =>
    rw [RunPlan.assignResults]
    cases hpending : slot.isPending with
    | true =>
      cases i with
      | zero => simp [hpending, List.head?_eq_getElem?]
      | succ i => simp [hpending, ih, List.countP_cons_of_pos]
    | false =>
      cases i with
      | zero => simp [hpending]
      | succ i => simp [hpending, ih]

theorem countP_take_lt {i j : Nat} (hi : i < slots.length) (hpending : slots[i].isPending = true) (hlt : i < j) :
    (slots.take i).countP (·.isPending) < (slots.take j).countP (·.isPending) := by
  calc (slots.take i).countP (·.isPending)
      < (slots.take (i + 1)).countP (·.isPending) := by
        rw [← List.take_concat_get' slots i hi, List.countP_append, List.countP_singleton, if_pos hpending]
        exact Nat.lt_succ_self _
    _ ≤ (slots.take j).countP (·.isPending) := (List.take_sublist_take_left hlt).countP_le

/-! ## The run -/

theorem Slot.isFailure_of_hasFailed (h : slot.hasFailed = true) : slot.report.outcome.isFailure = true :=
  Outcome.isFailure_of_isFailed (slot.isFailed_report.trans h)

/-- A file that is not pending failed before the pool. -/
theorem Slot.BeforePool.hasFailed_of_file (h : slot.BeforePool) (hfile : slot.entry.isFile = true)
    (hnot : slot.isPending = false) : slot.hasFailed = true := by
  cases ho : slot.outcome with
  | some o =>
    rw [hasFailed, ho]
    exact h.file hfile o ho
  | none =>
    refine h.rejected ?_
    by_contra hplaced
    exact Bool.eq_false_iff.1 hnot (Slot.isPending_iff.2 ⟨hfile, ho, hplaced⟩)

/-- What lies in a directory that has nowhere to go has nowhere to go. -/
theorem Slot.Opened.placed_above {d : Entry} (h : slot.Opened root d) (h' : slot'.Opened root e)
    (habove : Manifest.IsOnTheWay d.path e.path) (hplaced : slot'.destination ≠ none) : slot.destination ≠ none := by
  obtain ⟨p, hp⟩ := Option.ne_none_iff_exists'.1 hplaced
  have hsanitize := h'.destination hp
  rw [h'.entry] at hsanitize
  obtain ⟨q, hq⟩ := exists_sanitize_above hsanitize habove
  rw [(h.of_sanitize hq).1]
  exact nofun

section Passage

variable (c : Passage options plan schedule image slots s)

/-- What happens to slots in the passes does not change where they go. -/
theorem Passage.destination_iff_of_placed (hopened : List.Forall₂ (fun e slot => Slot.Opened root e slot) entries slots)
    (hslot : slot ∈ c.placed) {p : Path} : slot.destination = some p ↔ sanitize root slot.entry.path = .ok p := by
  obtain ⟨slot₀, hslot₀, hsettles⟩ := exists_of_forall₂ c.directories.settles hslot
  obtain ⟨e, -, hopened⟩ := exists_of_forall₂ hopened hslot₀
  have hsame : slot.entry = slot₀.entry ∧ slot.destination = slot₀.destination := by
    cases hsettles <;> exact ⟨rfl, rfl⟩
  rw [hsame.1, hsame.2]
  exact ⟨hopened.destination, fun hp => (hopened.of_sanitize (hopened.entry ▸ hp)).1⟩

theorem Passage.destination_iff_of_waiting (hopened : List.Forall₂ (fun e slot => Slot.Opened root e slot) entries slots)
    (hslot : slot ∈ c.waiting) {p : Path} : slot.destination = some p ↔ sanitize root slot.entry.path = .ok p := by
  obtain ⟨slot₁, hslot₁, rfl⟩ := List.mem_map.1 hslot
  have hunder : (slot₁.under c.failures).entry = slot₁.entry ∧
      (slot₁.under c.failures).destination = slot₁.destination := by
    rcases slot₁.under_eq c.failures with heq | ⟨-, -, o, -, heq⟩ <;> rw [heq] <;> exact ⟨rfl, rfl⟩
  rw [hunder.1, hunder.2]
  exact c.destination_iff_of_placed hopened hslot₁

/-- The directory pass leaves files alone that have somewhere to go. -/
theorem Passage.open_of_file (hopened : List.Forall₂ (fun e slot => Slot.Opened root e slot) entries slots)
    (hslot : slot ∈ c.placed) (hfile : slot.entry.isFile = true) (hplaced : slot.destination ≠ none) :
    slot.outcome = none := by
  obtain ⟨slot₀, hslot₀, hsettles⟩ := exists_of_forall₂ c.directories.settles hslot
  cases hsettles with
  | same => exact (open_of_opened hopened hslot₀ hplaced).1
  | settled hdirectory => exact absurd (hdirectory.symm.trans hfile) nofun

theorem Passage.result_eq_none (hplan : plan.options = options) (hhalts : c.afterDirectories.Halts options) (k : Nat) :
    c.results[k]?.join = none := by
  obtain ⟨log, hblocking, -⟩ := c.blocking
  exact files_of_halts hplan (hhalts.leads hblocking) c.files k

end Passage

section Run

variable (c : Course options plan schedule image slots s report s')

theorem Course.getElem_assigned {i : Nat} (hi : i < c.assigned.length) : ∃ hi' : i < c.waiting.length,
    c.assigned[i] = if c.waiting[i].isPending then
      { c.waiting[i] with outcome := c.results[(c.waiting.take i).countP (·.isPending)]?.join } else c.waiting[i] := by
  have hassigned : c.assigned[i]? = _ := getElem?_assignResults c.waiting c.results i
  rw [List.getElem?_eq_getElem hi, eq_comm, Option.map_eq_some_iff] at hassigned
  obtain ⟨slot, hslot, heq⟩ := hassigned
  obtain ⟨hi', rfl⟩ := List.getElem?_eq_some_iff.1 hslot
  exact ⟨hi', heq.symm⟩

/-- After an entry that failed in a pass none is brought to its destination. -/
theorem Course.pairwise_assigned (hplan : plan.options = options) (hfirst : options.stopOnFirstError = true)
    (hone : options.workers ≤ 1) (hopened : List.Forall₂ (fun e slot => Slot.Opened root e slot) entries slots)
    (horder : Entry.InOrder entries) : c.assigned.Pairwise fun x y =>
      x.hasFailed = true → x.destination ≠ none → y.report.outcome.isFailure = true := by
  have hbefore := c.beforePool hopened
  have hopen : ∀ slot ∈ slots, slot.destination ≠ none → slot.outcome = none :=
    fun slot hslot hplaced => (open_of_opened hopened hslot hplaced).1
  have hclosed : ∀ x ∈ slots, ∀ y ∈ slots, y.destination ≠ none → y.entry.parent? = some x.entry.path →
      x.destination ≠ none := by
    intro x hx y hy hplaced hparent
    obtain ⟨d, hd, hx⟩ := exists_of_forall₂ hopened hx
    obtain ⟨e, -, hy⟩ := exists_of_forall₂ hopened hy
    rw [hx.entry, hy.entry] at hparent
    exact hx.placed_above hy ⟨horder.present d hd, _, parentPath?_eq_some hparent⟩ hplaced
  obtain ⟨hpairs, hend⟩ := c.directories.stops (hplan ▸ hfirst) hopen hclosed (List.Subset.refl _) nofun
  obtain ⟨os, hturn, hresults⟩ := filesInTurn_files schedule hplan hfirst (fun _ hslot => destination_of_pending hslot)
    hone c.files
  -- what failed before the pool has stopped the run
  have hstopped : ∀ x ∈ c.waiting, x.hasFailed = true → x.destination ≠ none → c.afterDirectories.stopped = true := by
    intro x hx hfailed hplaced
    rcases hend with hstopped | ⟨hharmless, hnone⟩
    · exact hstopped
    · obtain ⟨x₁, hx₁, rfl⟩ := List.mem_map.1 hx
      obtain ⟨x₀, hx₀, hsettles⟩ := exists_of_forall₂ c.directories.settles hx₁
      rcases x₁.under_eq c.failures with heq | ⟨hfile, -, o, ho, heq⟩
      · rw [heq] at hfailed hplaced
        refine absurd ⟨⟨?_, hplaced⟩, hfailed⟩ (hnone x₁ hx₁)
        cases hsettles with
        | same => exact absurd (hopen _ hx₀ hplaced) (Slot.decided_of_hasFailed hfailed)
        | settled hdirectory => exact hdirectory
      · rw [heq] at hplaced
        cases hsettles with
        | same =>
          rw [hharmless.blocked? hx₀ hplaced] at ho
          cases ho
        | settled hdirectory => exact absurd (hdirectory.symm.trans hfile) nofun
  have hunstarted : ∀ y ∈ c.waiting, y.entry.isFile = true → ∀ k : Nat, c.results[k]?.join = none →
      (if y.isPending then { y with outcome := c.results[k]?.join } else y).report.outcome.isFailure = true := by
    intro y hy hfile k hnone
    cases hpending : y.isPending with
    | false => exact Slot.isFailure_of_hasFailed ((hbefore y hy).hasFailed_of_file hfile hpending)
    | true =>
      rw [if_pos rfl, Slot.report, hnone]
      rfl
  have hwaiting : c.waiting.Pairwise fun x y => (x.entry.isFile = true → y.entry.isFile = true) ∧
      (x.IsPlaced → x.hasFailed = true → y.IsPlaced → y.outcome = none) := by
    refine (List.pairwise_map.1 (c.map_entry_waiting hopened ▸ horder.directoriesFirst)).and
      (List.pairwise_map.2 (hpairs.imp ?_))
    intro x y hxy
    have hsame : ∀ z : Slot, (z.under c.failures).IsPlaced → z.under c.failures = z := by
      intro z hz
      rcases z.under_eq c.failures with heq | ⟨hfile, -, o, -, heq⟩
      · exact heq
      · rw [heq] at hz
        exact absurd (hz.1.symm.trans hfile) nofun
    intro hx hfailed hy
    have hx' := hsame x hx
    have hy' := hsame y hy
    rw [hx'] at hx hfailed
    rw [hy'] at hy ⊢
    exact hxy hx hfailed hy
  rw [List.pairwise_iff_getElem] at hwaiting ⊢
  intro i j hi hj hlt hfailed hplaced
  obtain ⟨hi', hx⟩ := c.getElem_assigned hi
  obtain ⟨hj', hy⟩ := c.getElem_assigned hj
  obtain ⟨hfiles, hdirectories⟩ := hwaiting i j hi' hj' hlt
  rw [hx] at hfailed hplaced
  rw [hy]
  cases hpending : c.waiting[i].isPending with
  | true =>
    rw [hpending, if_pos rfl] at hfailed
    obtain ⟨o, ho, hfailed⟩ := (Option.any_eq_true _ _).1 hfailed
    refine hunstarted _ (List.getElem_mem hj') (hfiles (Slot.isPending_iff.1 hpending).1) _ ?_
    cases hlater : c.results[(c.waiting.take j).countP (·.isPending)]?.join with
    | none => rfl
    | some o' =>
      obtain ⟨hk, rfl⟩ := List.getElem?_eq_some_iff.1 (join_range_map (hresults ▸ ho))
      obtain ⟨hk', rfl⟩ := List.getElem?_eq_some_iff.1 (join_range_map (hresults ▸ hlater))
      have hnone := List.pairwise_iff_getElem.1 hturn.fine _ _ hk hk' (countP_take_lt hi' hpending hlt)
      exact absurd (hnone.symm.trans hfailed) nofun
  | false =>
    rw [hpending, if_neg Bool.false_ne_true] at hfailed hplaced
    have hhalts : c.afterDirectories.Halts options := .inl (hstopped _ (List.getElem_mem hi') hfailed hplaced)
    cases hfile : c.waiting[j].entry.isFile with
    | true => exact hunstarted _ (List.getElem_mem hj') hfile _ (c.result_eq_none hplan hhalts _)
    | false =>
      have hnot : c.waiting[j].isPending = false := by rw [Slot.isPending, hfile]; rfl
      have hdirectory : c.waiting[i].entry.isFile = false := by
        rw [Bool.eq_false_iff]
        exact fun hyes => absurd (hfile.symm.trans (hfiles hyes)) nofun
      rw [hnot, if_neg Bool.false_ne_true]
      by_cases hnowhere : c.waiting[j].destination = none
      · exact Slot.isFailure_of_hasFailed ((hbefore _ (List.getElem_mem hj')).rejected hnowhere)
      · rw [Slot.report, hdirectories ⟨hdirectory, hplaced⟩ hfailed ⟨hfile, hnowhere⟩]
        rfl

theorem Course.destination_iff (hopened : List.Forall₂ (fun e slot => Slot.Opened root e slot) entries slots)
    (hslot : slot ∈ c.assigned) {p : Path} : slot.destination = some p ↔ sanitize root slot.entry.path = .ok p := by
  obtain ⟨waiting, hwaiting, hentry, hdestination, -⟩ := c.exists_waiting hslot
  rw [hentry, hdestination]
  exact c.destination_iff_of_waiting hopened hwaiting

/-- A slot whose outcome changes when directories get their modes is reported as refused. -/
theorem Course.eq_or_refused (hopened : List.Forall₂ (fun e slot => Slot.Opened root e slot) entries slots)
    (hslot : slot ∈ c.assigned) (hfinishes : slot.Finishes slot') : slot' = slot ∨ slot'.report.ModeRefused root := by
  refine hfinishes.imp_right ?_
  rintro ⟨hmade, p, err, hp, rfl⟩
  obtain ⟨waiting, hwaiting, hentry, -, hsame⟩ := c.exists_waiting hslot
  refine ⟨?_, p, err, (c.destination_iff hopened hslot).1 hp, rfl⟩
  show slot.entry.kind = .directory
  rw [hsame] at hmade
  rw [hentry]
  exact Entry.isFile_eq_false_iff.1 ((c.beforePool hopened waiting hwaiting).made hmade)

end Run

/-! ## Extraction -/

/-- **A run of one worker that is to stop at the first error starts no entry after it.** The entries of a report come
    in the order in which they are dealt with: directories first, and each kind as in the manifest. Once an entry that
    has a destination failed there, each one after it failed too or was not attempted. The modes of directories
    come last, and stop nothing. -/
theorem extract_stops {options : ExtractOptions} (hfirst : options.stopOnFirstError = true) (hone : options.workers ≤ 1)
    (schedule : List Nat) {bytes : Bytes} {image : Image} (hparse : Image.parse bytes = .ok image)
    (target : Option Path) (fs : FileSystem) {report : Report} {s : RunState}
    (h : extract options schedule image target (.start fs options) = (.ok report, s)) :
    report.entries.Pairwise fun r r' => r.outcome.isFailed = true → (∃ p, sanitize report.target r.path = .ok p) →
      ¬r.ModeRefused report.target → r'.outcome.isFailure = true := by
  obtain ⟨plan, slots, t, hplan, -, hslots, -, ⟨c⟩⟩ := extract_course h
  have hopened := slotsFor_opened hslots
  have hpairs := c.pairwise_assigned hplan hfirst hone hopened (Image.inOrder_select hparse)
  have htarget : report.target = plan.root := congrArg Report.target c.report
  have hentries : report.entries = c.finished.map (·.report) := congrArg Report.entries c.report
  rw [htarget, hentries, List.pairwise_map, List.pairwise_iff_getElem]
  rw [List.pairwise_iff_getElem] at hpairs
  intro i j hi hj hlt hfailed hplaced hkept
  have hlength := c.finishes.length_eq
  have hi' : i < c.assigned.length := hlength ▸ hi
  have hj' : j < c.assigned.length := hlength ▸ hj
  have hfinishes : ∀ (k : Nat) (hk' : k < c.assigned.length) (hk : k < c.finished.length),
      c.assigned[k].Finishes c.finished[k] := (List.forall₂_iff_get.1 c.finishes).2
  rcases c.eq_or_refused hopened (List.getElem_mem hj') (hfinishes j hj' hj) with heq' | ⟨-, p, err, -, hout⟩
  · rcases c.eq_or_refused hopened (List.getElem_mem hi') (hfinishes i hi' hi) with heq | hrefused
    · rw [heq] at hfailed hplaced
      rw [heq']
      refine hpairs i j hi' hj' hlt (Slot.isFailed_report _ ▸ hfailed) ?_
      obtain ⟨p, hp⟩ := hplaced
      rw [(c.destination_iff hopened (List.getElem_mem hi')).2 hp]
      exact nofun
    · exact absurd hrefused hkept
  · rw [hout]
    rfl

theorem exists_entries {ended : Except ExtractError Report × RunState} {es : List EntryReport}
    (h : ended.1.toOption.map (fun r => (r.target, r.entries)) = some (root, es)) :
    ∃ report, ended = (.ok report, ended.2) ∧ report.target = root ∧ report.entries = es := by
  obtain ⟨result, s⟩ := ended
  cases result with
  | error e => cases h
  | ok report =>
    cases h
    exact ⟨report, rfl, rfl, rfl⟩

/-- The first file meets a directory in its place, and the second one is not tried. -/
theorem extract_stops_at_conflict :
    let options : ExtractOptions := { workers := 1, stopOnFirstError := true }
    let image : Image := .written ⟨[.file "a" 0 1 (.of [120]) none, .file "b" 0 0 (.of []) none]⟩ [120]
    let fs := rootWith [([utf8 "out", utf8 "a"], .directory 0o755)]
    options.stopOnFirstError = true ∧ options.workers ≤ 1 ∧ Image.parse image.source = .ok image ∧
      ∃ report s, extract options [] image (some (.ofString "/out")) (.start fs options) = (.ok report, s) ∧
        report.entries = [⟨"a", .file, .ofError (.conflict (.ofString "/out/a") .directory)⟩, ⟨"b", .file, .notAttempted⟩] ∧
        report.entries.Pairwise fun r r' => r.outcome.isFailed = true → (∃ p, sanitize report.target r.path = .ok p) →
          ¬r.ModeRefused report.target → r'.outcome.isFailure = true := by
  intro options image fs
  have hvalid : ∀ d d' : Digest, Manifest.validate ⟨[.file "a" 0 1 d none, .file "b" 0 0 d' none]⟩ 1 = .ok () := by
    intro d d'
    cbv
  have hparse : Image.parse image.source = .ok image :=
    Image.parse_written (by decide) (by decide) (hvalid _ _) (by decide)
  have hentries : (extract options [] image (some (.ofString "/out")) (.start fs options)).1.toOption.map
      (fun r => (r.target, r.entries)) = some (.ofString "/out",
        [⟨"a", .file, .ofError (.conflict (.ofString "/out/a") .directory)⟩, ⟨"b", .file, .notAttempted⟩]) := by
    decide +kernel
  obtain ⟨report, hrun, -, hlist⟩ := exists_entries hentries
  exact ⟨rfl, by decide, hparse, report, _, hrun, hlist,
    extract_stops rfl (by decide) [] hparse (some (.ofString "/out")) fs hrun⟩

/-- An unsafe path that a lenient run records stops nothing: the file after it is created. -/
theorem extract_goes_on_after_unsafe_path :
    let options : ExtractOptions := { workers := 1, strict := false, stopOnFirstError := true }
    let image : Image := .written ⟨[.file "a\\b" 0 1 (.of [120]) none, .file "z" 0 0 (.of []) none]⟩ [120]
    Image.parse image.source = .ok image ∧
      ∃ report s, extract options [] image (some (.ofString "/out")) (.start (rootWith []) options) = (.ok report, s) ∧
        report.entries = [⟨"a\\b", .file, .ofError (.unsafePath "a\\b" .backslash)⟩, ⟨"z", .file, .created⟩] ∧
        ¬report.entries.Pairwise fun r r' => r.outcome.isFailed = true → r'.outcome.isFailure = true := by
  intro options image
  have hvalid : ∀ d d' : Digest, Manifest.validate ⟨[.file "a\\b" 0 1 d none, .file "z" 0 0 d' none]⟩ 1 = .ok () := by
    intro d d'
    cbv
  have hparse : Image.parse image.source = .ok image :=
    Image.parse_written (by decide) (by decide) (hvalid _ _) (by decide)
  have hentries : (extract options [] image (some (.ofString "/out")) (.start (rootWith []) options)).1.toOption.map
      (fun r => (r.target, r.entries)) = some (.ofString "/out",
        [⟨"a\\b", .file, .ofError (.unsafePath "a\\b" .backslash)⟩, ⟨"z", .file, .created⟩]) := by decide +kernel
  obtain ⟨report, hrun, -, hlist⟩ := exists_entries hentries
  refine ⟨hparse, report, _, hrun, hlist, fun hstops => ?_⟩
  rw [hlist] at hstops
  cases (List.pairwise_cons.1 hstops).1 _ List.mem_cons_self rfl

end TreeImage
