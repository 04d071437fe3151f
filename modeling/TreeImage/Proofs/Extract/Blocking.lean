import TreeImage.Proofs.Extract.Reaching
import TreeImage.Proofs.Extract.Stopping

set_option autoImplicit false

/-! # Nothing below a failed directory

A directory that failed is noted with the kind of its failure, and an entry only asks for its parent. But parents come
first, and what lies in a failed directory is noted like that directory, so the failure goes down to everything below,
however deep it lies. -/

namespace TreeImage

variable {options : ExtractOptions} {plan : RunPlan} {image : Image} {schedule : List Nat} {s s' t : RunState}
  {failures failures' : RunPlan.Failures} {root : Path} {e : Entry} {entries : List Entry} {slot slot' : Slot}
  {slots slots' : List Slot} {report : Report} {o : Outcome} {path : String} {kind : ErrorKind} {message : String}

/-! ## What is noted -/

theorem RunPlan.Failures.lookup_note_of_ne (h : e.path ≠ path) (failures : RunPlan.Failures) (o : Outcome) :
    (failures.note e o).lookup path = failures.lookup path := by
  cases o with
  | failed kind message =>
    rw [note, List.lookup_cons, beq_false_of_ne h.symm]
  | _ => rfl

theorem RunPlan.Failures.lookup_note_failed (failures : RunPlan.Failures) :
    (failures.note e (.failed kind message)).lookup e.path = some kind := by
  rw [note, List.lookup_cons, beq_self_eq_true]

theorem RunPlan.blocked?_congr (h : ∀ parent, e.parent? = some parent → failures.lookup parent = failures'.lookup parent) :
    RunPlan.blocked? failures e = RunPlan.blocked? failures' e := by
  rw [blocked?, blocked?]
  split
  · rfl
  · next parent hparent => rw [h parent hparent]

theorem RunPlan.exists_blocked {parent : String} (hparent : e.parent? = some parent)
    (h : failures.lookup parent = some kind) : ∃ message, RunPlan.blocked? failures e = some (.failed kind message) :=
  ⟨_, by simp only [blocked?, hparent, h]; rfl⟩

/-! ## The directory pass -/

theorem DirectoryStep.entry_eq (h : DirectoryStep options plan failures slot s failures' slot' t) :
    slot'.entry = slot.entry := by
  cases h <;> rfl

theorem DirectoryStep.lookup_eq (h : DirectoryStep options plan failures slot s failures' slot' t)
    (hne : slot.entry.path ≠ path) : failures'.lookup path = failures.lookup path := by
  cases h with
  | decided => exact RunPlan.Failures.lookup_note_of_ne hne _ _
  | placed => exact RunPlan.Failures.lookup_note_of_ne hne _ _
  | _ => rfl

theorem DirectoryRun.lookup_eq (h : DirectoryRun options plan failures slots s failures' slots' s')
    (hnone : ∀ slot ∈ slots, slot.entry.path ≠ path) : failures'.lookup path = failures.lookup path := by
  induction h with
  | nil => rfl
  | halted => rfl
  | cons hstep _ ih =>
    obtain ⟨hne, hrest⟩ := List.forall_mem_cons.1 hnone
    rw [ih hrest, hstep.lookup_eq hne]

/-- The second slot is for another entry than the first, and not for its parent. -/
def Slot.Precedes (x y : Slot) : Prop := x.entry.path ≠ y.entry.path ∧ x.entry.parent? ≠ some y.entry.path

/-- When an entry is dealt with, its parent is noted as it is in the end, and so is the entry right after. -/
theorem DirectoryStep.noted (hstep : DirectoryStep options plan failures slot s failures' slot' t)
    {last : RunPlan.Failures} (hrest : DirectoryRun options plan failures' slots t last slots' s')
    (horder : ∀ y ∈ slots, slot.Precedes y) :
    RunPlan.blocked? last slot'.entry = RunPlan.blocked? failures slot'.entry ∧
      last.lookup slot'.entry.path = failures'.lookup slot'.entry.path := by
  rw [hstep.entry_eq]
  refine ⟨RunPlan.blocked?_congr fun parent hparent => ?_, ?_⟩
  · have hne : slot.entry.path ≠ parent := by
      rintro rfl
      exact Nat.lt_irrefl _ (Manifest.length_lt_of_parentPath? hparent)
    rw [hrest.lookup_eq fun y hy hsame => (horder y hy).2 (hsame ▸ hparent), hstep.lookup_eq hne]
  · exact hrest.lookup_eq fun y hy hsame => (horder y hy).1 hsame.symm

/-- What the pass makes of a directory that has somewhere to go: it is left open by a run that halts, or it is settled.
    Then it failed like its parent, if that failed, and it is noted if it failed. -/
inductive Slot.Noted (options : ExtractOptions) (failures : RunPlan.Failures) (s : RunState) (slot : Slot) : Prop
  | left (hopen : slot.outcome = none) (hmade : slot.made = false) (hhalts : s.Halts options)
  | settled {o : Outcome} (ho : slot.outcome = some o)
      (hnoted : ∀ kind message, o = .failed kind message → failures.lookup slot.entry.path = some kind)
      (hblocked : ∀ o', RunPlan.blocked? failures slot.entry = some o' → o = o' ∧ slot.made = false)

theorem DirectoryRun.noted (h : DirectoryRun options plan failures slots s failures' slots' s')
    (horder : slots.Pairwise Slot.Precedes)
    (hopen : ∀ slot ∈ slots, slot.destination ≠ none → slot.outcome = none ∧ slot.made = false) :
    ∀ slot ∈ slots', slot.IsPlaced → slot.Noted options failures' s' := by
  induction h with
  | nil => exact fun slot hslot => absurd hslot List.not_mem_nil
  | halted _ _ hlook =>
    intro slot hslot hplaced
    obtain ⟨hopen, hmade⟩ := hopen slot hslot hplaced.2
    exact .left hopen hmade ((run_isHalted_iff hlook).1.2 rfl)
  | cons hstep hrest ih =>
    obtain ⟨hhead, htail⟩ := List.pairwise_cons.1 horder
    obtain ⟨hopenHead, hopenRest⟩ := List.forall_mem_cons.1 hopen
    refine List.forall_mem_cons.2 ⟨fun hplaced => ?_, ih htail hopenRest⟩
    obtain ⟨hparent, hself⟩ := hstep.noted hrest hhead
    cases hstep with
    | file hfile => exact absurd (hfile.symm.trans hplaced.1) nofun
    | decided _ ho => exact absurd (ho.symm.trans (hopenHead hplaced.2).1) nofun
    | unplaced _ _ hnowhere => exact absurd hnowhere hplaced.2
    | placed _ _ _ _ hplace =>
      refine .settled rfl ?_ ?_
      · rintro kind message rfl
        exact hself.trans (RunPlan.Failures.lookup_note_failed _)
      · intro o' hblocked
        rw [hparent] at hblocked
        obtain ⟨-, -, ⟨hsame, hmade, -⟩ | ⟨hnone, -⟩⟩ := placeDirectory_ends hplace
        · exact ⟨Option.some.inj (hsame.symm.trans hblocked), hmade⟩
        · exact absurd (hnone.symm.trans hblocked) nofun

/-- After a directory that was left open, all are left open. -/
theorem DirectoryRun.pairwise_open (h : DirectoryRun options plan failures slots s failures' slots' s')
    (hopen : ∀ slot ∈ slots, slot.destination ≠ none → slot.outcome = none) :
    slots'.Pairwise fun x y => x.IsPlaced → x.outcome = none → y.IsPlaced → y.outcome = none := by
  induction h with
  | nil => exact .nil
  | halted => exact List.pairwise_of_forall_mem_list fun x _ y hy _ _ hplaced => hopen y hy hplaced.2
  | cons hstep _ ih =>
    refine List.pairwise_cons.2 ⟨fun y _ hplaced hnone => ?_, ih fun slot hslot => hopen slot (List.mem_cons_of_mem _ hslot)⟩
    cases hstep with
    | file hfile => exact absurd (hfile.symm.trans hplaced.1) nofun
    | decided _ ho => exact absurd (ho.symm.trans hnone) nofun
    | unplaced _ _ hnowhere => exact absurd hnowhere hplaced.2
    | placed => cases hnone

/-- The call was made to bring a directory of these slots to its destination, and that one is not blocked. -/
def DirectoryCall (plan : RunPlan) (failures : RunPlan.Failures) (slots : List Slot) (c : FileCall) : Prop :=
  ∃ slot ∈ slots, slot.entry.isFile = false ∧ slot.outcome ≠ none ∧ RunPlan.blocked? failures slot.entry = none ∧
    ∃ p asked result, slot.destination = some p ∧
      (createDirectory plan.realRoot p slot.entry.path).Ends FileSystem.answer asked result ∧ ∃ x ∈ asked, x.1 = c

theorem DirectoryCall.tail {c : FileCall} (h : DirectoryCall plan failures slots c) :
    DirectoryCall plan failures (slot :: slots) c := by
  obtain ⟨slot, hslot, hmade⟩ := h
  exact ⟨slot, List.mem_cons_of_mem _ hslot, hmade⟩

theorem DirectoryRun.exists_calls (h : DirectoryRun options plan failures slots s failures' slots' s')
    (horder : slots.Pairwise Slot.Precedes) : ∃ log, (RunState.handler options).Leads s log s' ∧
      ∀ c ∈ fileCalls log, DirectoryCall plan failures' slots' c := by
  induction h with
  | nil => exact ⟨[], .nil, nofun⟩
  | halted _ _ hlook =>
    obtain ⟨log, hleads, -, hnone⟩ := exists_leads_of_look hlook
    exact ⟨log, hleads, by rw [hnone]; nofun⟩
  | cons hstep hrest ih =>
    obtain ⟨hhead, htail⟩ := List.pairwise_cons.1 horder
    obtain ⟨after, hafter, hcalls⟩ := ih htail
    obtain ⟨hparent, -⟩ := hstep.noted hrest hhead
    cases hstep with
    | file => exact ⟨after, hafter, fun c hc => (hcalls c hc).tail⟩
    | decided => exact ⟨after, hafter, fun c hc => (hcalls c hc).tail⟩
    | unplaced _ _ _ hlook =>
      obtain ⟨look, hleads, -, hnone⟩ := exists_leads_of_look hlook
      refine ⟨_, hleads.append hafter, fun c hc => ?_⟩
      rw [fileCalls_append, hnone, List.nil_append] at hc
      exact (hcalls c hc).tail
    | placed hdirectory _ hp hlook hplace hdone hleads =>
      obtain ⟨look, hlooked, -, hnone⟩ := exists_leads_of_look hlook
      obtain ⟨-, -, hplaced⟩ := placeDirectory_ends hplace
      refine ⟨_, (hlooked.append hleads).append hafter, fun c hc => ?_⟩
      rw [fileCalls_append, fileCalls_append, fileCalls_append, hnone, (entryDone_ends hdone).2, List.nil_append,
        List.append_nil] at hc
      rcases List.mem_append.1 hc with hc | hc
      · rcases hplaced with ⟨-, -, rfl⟩ | ⟨hfree, -, asked, result, hcreate, hasked⟩
        · cases hc
        · rw [hasked] at hc
          obtain ⟨x, hx, rfl⟩ := mem_fileCalls_map_onFile.1 hc
          exact ⟨_, List.mem_cons_self, hdirectory, nofun, hparent.trans hfree, _, asked, result, hp, hcreate, x, hx, rfl⟩
      · exact (hcalls c hc).tail

/-! ## The pool -/

/-- The call was made to write one of the files that are pending, and this one has a result. -/
def FileCalled (plan : RunPlan) (image : Image) (pending : List Slot) (results : List (Option Outcome))
    (call : FileCall) : Prop :=
  ∃ (i : Nat) (slot : Slot) (p : Path) (o : Outcome), pending[i]? = some slot ∧ slot.destination = some p ∧
    results[i]? = some (some o) ∧ ∃ asked result,
      (writeFile plan.options plan.realRoot p slot.entry (image.content slot.entry)).Ends FileSystem.answer asked result ∧
        ∃ x ∈ asked, x.1 = call

theorem fileCalled_of_mem {pending : List Slot} {results : List (Option Outcome)} {looks : List (Look Session)}
    {jobs : List (JobDone Session Outcome)} {log : List (Exchange Session)}
    (hrun : FilesRun options plan image pending s looks jobs log results s')
    (hpending : ∀ slot ∈ pending, slot.destination ≠ none) {call : FileCall} (hcall : call ∈ fileCalls log) :
    FileCalled plan image pending results call := by
  obtain ⟨x, hx, hmade⟩ := List.mem_filterMap.1 hcall
  rcases List.mem_append.1 (hrun.said.mem_iff.1 hx) with hx | hx
  · obtain ⟨l, hl, hx⟩ := List.mem_flatMap.1 hx
    have hmem : call ∈ fileCalls l.log := List.mem_filterMap.2 ⟨x, hx, hmade⟩
    rw [(isHalted_ends (hrun.looked l hl)).2.1] at hmem
    cases hmem
  · obtain ⟨j, hj, hx⟩ := List.mem_flatMap.1 hx
    obtain ⟨slot, p, hslot, hp, hends⟩ := exists_placeFile_of_job hpending hrun hj
    obtain ⟨asked, result, hwrite, hasked, -⟩ := placeFile_ends hends
    have hmem : call ∈ (fileExchanges j.log).map (·.1) := map_fileExchanges j.log ▸ List.mem_filterMap.2 ⟨x, hx, hmade⟩
    exact ⟨j.index, slot, p, j.result, hslot, hp, hrun.getElem?_results hj, asked, result, hwrite,
      List.mem_map.1 (hasked ▸ hmem)⟩

/-! ## The passes together -/

/-- The report leaves an entry out that lies in a directory which failed with this kind. It failed or was not
    attempted; where the run neither was cancelled nor was to stop, it failed likewise, or for its own path. And no call
    of the run went into the directory. -/
structure Report.LeavesOut (options : ExtractOptions) (s : RunState) (report : Report) (kind : ErrorKind)
    (r r' : EntryReport) : Prop where
  unplaced : r'.outcome.isFailure = true
  told : report.cancelled = false → options.stopOnFirstError = false → ∃ kind' message,
    r'.outcome = .failed kind' message ∧
      (kind' = kind ∨ kind' = .path ∧ ∃ err, sanitize report.target r'.path = .error err)
  untouched : ∀ q, sanitize report.target r'.path = .ok q → ∃ p, sanitize report.target r.path = .ok p ∧
    q.liesIn p = true ∧ ∀ call ∈ s.calls, call.goesInto p = false

theorem Entry.InOrder.precedes (h : Entry.InOrder (slots.map (·.entry))) : slots.Pairwise Slot.Precedes := by
  have hdistinct : slots.Pairwise fun x y => x.entry.path ≠ y.entry.path := by
    have hpaths := h.distinct
    rw [List.map_map] at hpaths
    exact List.pairwise_map.1 hpaths
  refine (hdistinct.and (List.pairwise_map.1 h.aboveFirst)).imp_of_mem ?_
  rintro x y - hy ⟨hne, habove⟩
  refine ⟨hne, fun hparent => habove ⟨h.present _ (List.mem_map_of_mem hy), _, parentPath?_eq_some hparent⟩⟩

theorem Passage.noted (c : Passage options plan schedule image slots s)
    (hopened : List.Forall₂ (fun e slot => Slot.Opened root e slot) entries slots) (horder : Entry.InOrder entries)
    (hslot : slot ∈ c.placed) (hplaced : slot.IsPlaced) : slot.Noted options c.failures c.afterDirectories :=
  c.directories.noted (Entry.InOrder.precedes (map_entry_of_opened hopened ▸ horder))
    (fun _ hslot => open_of_opened hopened hslot) slot hslot hplaced

section Passage

variable (c : Passage options plan schedule image slots s)
  (hopened : List.Forall₂ (fun e slot => Slot.Opened root e slot) entries slots) (horder : Entry.InOrder entries)

include hopened horder

/-- What lies in a directory that was left open is left open. -/
theorem Passage.open_below (hslot : slot ∈ c.placed) (hslot' : slot' ∈ c.placed)
    (hbelow : Manifest.IsOnTheWay slot.entry.path slot'.entry.path) (hplaced : slot.IsPlaced) (hopen : slot.outcome = none)
    (hplaced' : slot'.IsPlaced) : slot'.outcome = none := by
  have hpairs := c.directories.pairwise_open fun _ hslot hplaced => (open_of_opened hopened hslot hplaced).1
  have habove : c.placed.Pairwise fun x y => ¬Manifest.IsOnTheWay y.entry.path x.entry.path :=
    List.pairwise_map.1 (c.map_entry_placed hopened ▸ horder.aboveFirst)
  rw [List.pairwise_iff_getElem] at hpairs habove
  obtain ⟨i, hi, rfl⟩ := List.getElem_of_mem hslot
  obtain ⟨j, hj, rfl⟩ := List.getElem_of_mem hslot'
  rcases Nat.lt_trichotomy i j with hlt | rfl | hlt
  · exact hpairs i j hi hj hlt hplaced hopen hplaced'
  · exact hopen
  · exact absurd hbelow (habove j i hj hi hlt)

/-- What goes on for an entry that lies elsewhere does not go into the directory. -/
theorem Passage.exists_place_elsewhere {d : Slot} (hd : d ∈ c.placed) {names : RealPath} (hnames : names.IsProper) (hroot : root = names.toPath)
    {p q : Path} (hp : d.destination = some p) (hq : sanitize root path = .ok q)
    (hnot : ¬Manifest.IsOnTheWay d.entry.path path) : ∃ (place r : RealPath) (n : Name), place.IsProper ∧
      RealPath.IsProper (r ++ [n]) ∧ p = place.toPath ∧ q = RealPath.toPath (r ++ [n]) ∧ ¬place <+: r := by
  subst hroot
  obtain ⟨hproper, rfl⟩ := sanitize_eq_ok hnames ((c.destination_iff_of_placed hopened hd).1 hp)
  obtain ⟨r, n, hrn, rfl, hapart⟩ := exists_place hnames hq
  have hne : d.entry.path ≠ "" := horder.present _ (c.map_entry_placed hopened ▸ List.mem_map_of_mem hd)
  exact ⟨_, r, n, RealPath.isProper_append.2 ⟨hnames, hproper⟩, hrn, rfl, rfl, hapart _ hne hnot⟩

section Failed

variable {d : Slot} (hd : d ∈ c.placed) (hplaced : d.IsPlaced) (hfailed : d.outcome = some (.failed kind message))

include hd hplaced hfailed

/-- Below a directory that failed, every entry is blocked with its kind, or left open by a run that halts. -/
theorem Passage.blocked_below {y : Slot} (hy : y ∈ c.placed) (hyplaced : y.destination ≠ none)
    (hbelow : Manifest.IsOnTheWay d.entry.path y.entry.path) :
    (∃ message, RunPlan.blocked? c.failures y.entry = some (.failed kind message)) ∨
      c.afterDirectories.Halts options ∧ (y.IsPlaced → y.outcome = none) := by
  induction hlength : y.entry.path.length using Nat.strong_induction_on generalizing y with
  | _ length ih =>
    obtain ⟨parent, hparent, hcases⟩ := Manifest.isOnTheWay_iff.1 hbelow
    rcases hcases with ⟨rfl, -⟩ | habove
    · -- it lies right in the directory that failed
      cases c.noted hopened horder hd hplaced with
      | left hopen => exact absurd (hopen.symm.trans hfailed) nofun
      | settled ho hnoted =>
        exact .inl (RunPlan.exists_blocked hparent (hnoted kind message (Option.some.inj (ho.symm.trans hfailed))))
    · -- its parent lies below
      have hne : parent ≠ "" := by
        rintro rfl
        obtain ⟨-, back, hback⟩ := habove
        simp at hback
      have hway : Manifest.IsOnTheWay parent y.entry.path := ⟨hne, _, parentPath?_eq_some hparent⟩
      have hentry : y.entry ∈ entries := c.map_entry_placed hopened ▸ List.mem_map_of_mem hy
      obtain ⟨e, he, hdirectory, rfl⟩ := horder.above y.entry hentry parent hway
      rw [← c.map_entry_placed hopened] at he
      obtain ⟨m, hm, rfl⟩ := List.mem_map.1 he
      have hmplaced : m.IsPlaced := by
        obtain ⟨p, hp⟩ := Option.ne_none_iff_exists'.1 hyplaced
        obtain ⟨q, hq⟩ := exists_sanitize_above ((c.destination_iff_of_placed hopened hy).1 hp) hway
        refine ⟨hdirectory, ?_⟩
        rw [(c.destination_iff_of_placed hopened hm).2 hq]
        exact nofun
      have hshorter := Manifest.length_lt_of_parentPath? hparent
      have hleft : m.outcome = none → y.IsPlaced → y.outcome = none :=
        fun hopen => c.open_below hopened horder hm hy hway hmplaced hopen
      rcases ih _ (hlength ▸ hshorter) hm hmplaced.2 habove rfl with ⟨message', hblocked⟩ | ⟨hhalts, hopen⟩
      · cases c.noted hopened horder hm hmplaced with
        | left hopen _ hhalts => exact .inr ⟨hhalts, hleft hopen⟩
        | settled ho hnoted hsame =>
          exact .inl (RunPlan.exists_blocked hparent (hnoted kind message' (hsame _ hblocked).1))
      · exact .inr ⟨hhalts, hleft (hopen hmplaced)⟩

/-- A directory below one that failed is not tried. -/
theorem Passage.untried_below {y : Slot} (hy : y ∈ c.placed) (hyplaced : y.IsPlaced)
    (hbelow : Manifest.IsOnTheWay d.entry.path y.entry.path) : y.made = false ∧
      (y.outcome = none ∧ c.afterDirectories.Halts options ∨
        (∃ message, y.outcome = some (.failed kind message)) ∧ RunPlan.blocked? c.failures y.entry ≠ none) := by
  have hblocked := c.blocked_below hopened horder hd hplaced hfailed hy hyplaced.2 hbelow
  cases c.noted hopened horder hy hyplaced with
  | left hopen hmade hhalts => exact ⟨hmade, .inl ⟨hopen, hhalts⟩⟩
  | settled ho _ hsame =>
    rcases hblocked with ⟨message', hblocked⟩ | ⟨-, hopen⟩
    · obtain ⟨rfl, hmade⟩ := hsame _ hblocked
      refine ⟨hmade, .inr ⟨⟨message', ho⟩, ?_⟩⟩
      rw [hblocked]
      exact nofun
    · exact absurd (ho.symm.trans (hopen hyplaced)) nofun

/-- A file below is pending only in a run that halts. -/
theorem Passage.halts_of_pending {y : Slot} (hy : y ∈ c.waiting) (hpending : y.isPending = true)
    (hbelow : Manifest.IsOnTheWay d.entry.path y.entry.path) : c.afterDirectories.Halts options := by
  obtain ⟨hfile, hopen, hyplaced⟩ := Slot.isPending_iff.1 hpending
  obtain ⟨y₁, hy₁, rfl⟩ := List.mem_map.1 hy
  rcases y₁.under_eq c.failures with heq | ⟨-, -, o, -, heq⟩
  · have hunder := heq
    rw [heq] at hfile hopen hyplaced hbelow
    rcases c.blocked_below hopened horder hd hplaced hfailed hy₁ hyplaced hbelow with ⟨message', hblocked⟩ | ⟨hhalts, -⟩
    · rw [Slot.under, hfile, hopen, hblocked] at hunder
      cases (congrArg Slot.outcome hunder).trans hopen
    · exact hhalts
  · rw [heq] at hopen
    cases hopen

end Failed

end Passage

section Run

variable (c : Course options plan schedule image slots s report s')
  (hopened : List.Forall₂ (fun e slot => Slot.Opened root e slot) entries slots) (horder : Entry.InOrder entries)

/-- Where the calls of the passes come from: the directory pass, the pool, or setting the modes of directories. -/
theorem Course.call_cases (hplan : plan.options = options) (horder : slots.Pairwise Slot.Precedes) {call : FileCall}
    (hcall : call ∈ s'.calls) : call ∈ s.calls ∨ DirectoryCall plan c.failures c.placed call ∨
      FileCalled plan image (c.waiting.filter (·.isPending)) c.results call ∨
      ∃ slot ∈ c.assigned, slot.made = true ∧
        ∃ p mode, slot.destination = some p ∧ slot.entry.mode = some mode ∧ call = .setMode p mode := by
  obtain ⟨first, hfirst, hdirectories⟩ := c.directories.exists_calls horder
  obtain ⟨second, hsecond, -, hnone⟩ := c.blocking
  obtain ⟨looks, jobs, third, hrun⟩ := c.filesRun hplan
  obtain ⟨last, hlast, hends⟩ := c.finishing
  have hlooked : c.atEnd.lookAtToken options.cancelToken = (c.cancelled, s') := c.looked
  have hsame : s'.calls = c.atEnd.calls := by
    have htrace := (RunState.fs_lookAtToken c.atEnd options.cancelToken).2
    rw [hlooked] at htrace
    exact congrArg (List.filterMap _) htrace
  rw [hsame, hlast.calls, hrun.leads.calls, hsecond.calls, hnone, List.append_nil, hfirst.calls] at hcall
  simp only [List.mem_append] at hcall
  rcases hcall with ((hcall | hcall) | hcall) | hcall
  · exact .inl hcall
  · exact .inr (.inl (hdirectories call hcall))
  · exact .inr (.inr (.inl (fileCalled_of_mem hrun (fun _ hslot => destination_of_pending hslot) hcall)))
  · exact .inr (.inr (.inr ((finishDirectories_ends hends).2.2 call hcall)))

/-- The directories are as the directory pass left them. -/
theorem Course.mem_placed (hslot : slot ∈ c.assigned) (hdirectory : slot.entry.isFile = false) : slot ∈ c.placed := by
  rcases mem_assignResults hslot with ⟨hslot, -⟩ | ⟨i, slot', hslot', rfl⟩
  · obtain ⟨slot₁, hslot₁, rfl⟩ := List.mem_map.1 hslot
    rcases slot₁.under_eq c.failures with heq | ⟨hfile, -, o, -, heq⟩
    · rwa [heq]
    · rw [heq] at hdirectory
      exact absurd (hdirectory.symm.trans hfile) nofun
  · have hfile := (Slot.isPending_iff.1 (List.mem_filter.1 (List.mem_of_getElem? hslot')).2).1
    exact absurd (hdirectory.symm.trans hfile) nofun

/-- A run that is neither cancelled nor to stop goes on to its files. -/
theorem Course.not_halts (hplan : plan.options = options) (hstopped : s.stopped = false)
    (hcancelled : report.cancelled = false) (hgoes : options.stopOnFirstError = false) :
    ¬c.afterDirectories.Halts options := by
  intro hhalts
  rcases c.cancelled_or_failed hplan hstopped (c.halts_afterFiles hplan hhalts) with hyes | ⟨hyes, -⟩
  · exact absurd (hcancelled.symm.trans hyes) nofun
  · exact absurd (hgoes.symm.trans hyes) nofun

include hopened

/-- An entry whose path is refused has failed with that, and stays so. -/
theorem Course.outcome_of_rejected (hslot : slot ∈ c.assigned) {err : ExtractError}
    (hrejected : sanitize root slot.entry.path = .error err) : slot.made = false ∧ slot.outcome = some (.ofError err) := by
  rcases mem_assignResults hslot with ⟨hslot, -⟩ | ⟨i, slot', hslot', rfl⟩
  · obtain ⟨slot₁, hslot₁, rfl⟩ := List.mem_map.1 hslot
    obtain ⟨slot₀, hslot₀, hsettles⟩ := exists_of_forall₂ c.directories.settles hslot₁
    obtain ⟨e, -, hopened⟩ := exists_of_forall₂ hopened hslot₀
    have hstart : sanitize root slot₀.entry.path = .error err → slot₀.made = false ∧ slot₀.outcome = some (.ofError err) := by
      intro hrejected
      obtain ⟨p, hp, rfl⟩ | ⟨err', herr, rfl⟩ := hopened
      · exact absurd (hp.symm.trans hrejected) nofun
      · cases herr.symm.trans hrejected
        exact ⟨rfl, rfl⟩
    have hplaced : sanitize root slot₁.entry.path = .error err → slot₁.made = false ∧ slot₁.outcome = some (.ofError err) := by
      intro hrejected
      cases hsettles with
      | same => exact hstart hrejected
      | settled _ hopen => exact absurd ((hstart hrejected).2.symm.trans hopen) nofun
    rcases slot₁.under_eq c.failures with heq | ⟨-, hopen, o, -, heq⟩
    · rw [heq] at hrejected ⊢
      exact hplaced hrejected
    · rw [heq] at hrejected
      exact absurd ((hplaced hrejected).2.symm.trans hopen) nofun
  · obtain ⟨hslot', hpending⟩ := List.mem_filter.1 (List.mem_of_getElem? hslot')
    obtain ⟨p, hp⟩ := Option.ne_none_iff_exists'.1 (Slot.isPending_iff.1 hpending).2.2
    exact absurd (((c.destination_iff_of_waiting hopened hslot').1 hp).symm.trans hrejected) nofun

include horder

section Failed

variable {d : Slot} (hd : d ∈ c.placed) (hplaced : d.IsPlaced) (hfailed : d.outcome = some (.failed kind message))

include hd hplaced hfailed

/-- What becomes of the entries below until directories get their modes. -/
theorem Course.assigned_below (hplan : plan.options = options) {y : Slot}
    (hy : y ∈ c.assigned) (hyplaced : y.destination ≠ none)
    (hbelow : Manifest.IsOnTheWay d.entry.path y.entry.path) : y.made = false ∧
      (y.outcome = none ∧ c.afterDirectories.Halts options ∨ ∃ kind' message, y.outcome = some (.failed kind' message) ∧
        (c.afterDirectories.Halts options ∨ kind' = kind)) := by
  have hmade : ∀ y ∈ c.waiting, y.entry.isFile = true → y.made = false := fun y hy hfile => by
    rw [Bool.eq_false_iff]
    exact fun hmade => absurd (hfile.symm.trans ((c.beforePool hopened y hy).made hmade)) nofun
  rcases mem_assignResults hy with ⟨hy, hnot⟩ | ⟨i, y', hslot', rfl⟩
  · obtain ⟨y₁, hy₁, rfl⟩ := List.mem_map.1 hy
    have hfile := hmade _ hy
    rcases y₁.under_eq c.failures with heq | ⟨hyes, -, o, ho, heq⟩
    · rw [heq] at hnot hyplaced hbelow ⊢
      have hdirectory : y₁.entry.isFile = false := by
        rw [Bool.eq_false_iff]
        intro hyes
        -- a file that has somewhere to go is pending
        have hpending := Slot.isPending_iff.2 ⟨hyes, c.open_of_file hopened hy₁ hyes hyplaced, hyplaced⟩
        exact absurd (hpending.symm.trans hnot) nofun
      obtain ⟨hmade, hcases⟩ := c.untried_below hopened horder hd hplaced hfailed hy₁ ⟨hdirectory, hyplaced⟩ hbelow
      refine ⟨hmade, hcases.imp_right ?_⟩
      rintro ⟨⟨message', ho⟩, -⟩
      exact ⟨kind, message', ho, .inr rfl⟩
    · rw [heq] at hfile hyplaced hbelow ⊢
      refine ⟨hfile hyes, .inr ?_⟩
      rcases c.blocked_below hopened horder hd hplaced hfailed hy₁ hyplaced hbelow with ⟨message', hblocked⟩ | ⟨hhalts, -⟩
      · exact ⟨kind, message', congrArg some (Option.some.inj (ho.symm.trans hblocked)), .inr rfl⟩
      · cases o with
        | failed kind' message' => exact ⟨kind', message', rfl, .inl hhalts⟩
        | _ => cases isFailed_of_blocked? ho
  · obtain ⟨hy', hpending⟩ := List.mem_filter.1 (List.mem_of_getElem? hslot')
    have hhalts := c.halts_of_pending hopened horder hd hplaced hfailed hy' hpending hbelow
    exact ⟨hmade y' hy' (Slot.isPending_iff.1 hpending).1, .inl ⟨c.result_eq_none hplan hhalts i, hhalts⟩⟩

/-- No call of the passes goes into a directory that failed. -/
theorem Course.calls_avoid (hplan : plan.options = options) {names : RealPath}
    (hnames : names.IsProper) (hroot : root = names.toPath) {p : Path} (hp : d.destination = some p) {call : FileCall}
    (hcall : call ∈ s'.calls) : call ∈ s.calls ∨ call.goesInto p = false := by
  have helsewhere : ∀ {path : String} {q : Path}, sanitize root path = .ok q →
      ¬Manifest.IsOnTheWay d.entry.path path → ∃ (place r : RealPath) (n : Name), place.IsProper ∧
        RealPath.IsProper (r ++ [n]) ∧ p = place.toPath ∧ q = RealPath.toPath (r ++ [n]) ∧ ¬place <+: r :=
    c.exists_place_elsewhere hopened horder hd hnames hroot hp
  refine (c.call_cases hplan (Entry.InOrder.precedes (map_entry_of_opened hopened ▸ horder)) hcall).imp_right ?_
  rintro (⟨y, hy, hdirectory, htried, hfree, q, asked, result, hq, hcreate, x, hx, rfl⟩ |
    ⟨i, y, q, o, hslot, hq, hresult, asked, result, hwrite, x, hx, rfl⟩ | ⟨y, hy, hmade, q, mode, hq, -, rfl⟩)
  · have hnot : ¬Manifest.IsOnTheWay d.entry.path y.entry.path := by
      intro hbelow
      have hyplaced : y.IsPlaced := ⟨hdirectory, by rw [hq]; exact nofun⟩
      obtain ⟨-, ⟨hopen, -⟩ | ⟨-, hblocked⟩⟩ := c.untried_below hopened horder hd hplaced hfailed hy hyplaced hbelow
      · exact htried hopen
      · exact hblocked hfree
    obtain ⟨place, r, n, hplace, hrn, rfl, rfl, hapart⟩ := helsewhere ((c.destination_iff_of_placed hopened hy).1 hq) hnot
    exact ((createDirectory_avoids hplace hrn hapart).ends hcreate).1 x hx
  · obtain ⟨hy, hpending⟩ := List.mem_filter.1 (List.mem_of_getElem? hslot)
    have hnot : ¬Manifest.IsOnTheWay d.entry.path y.entry.path := by
      intro hbelow
      have hhalts := c.halts_of_pending hopened horder hd hplaced hfailed hy hpending hbelow
      have hunstarted := c.result_eq_none hplan hhalts i
      rw [hresult] at hunstarted
      cases hunstarted
    obtain ⟨place, r, n, hplace, hrn, rfl, rfl, hapart⟩ := helsewhere ((c.destination_iff_of_waiting hopened hy).1 hq) hnot
    exact ((writeFile_asks hplace hrn hapart).ends hwrite).1 x hx
  · have hnot : ¬Manifest.IsOnTheWay d.entry.path y.entry.path := by
      intro hbelow
      have hyplaced : y.destination ≠ none := by rw [hq]; exact nofun
      have hunmade := (c.assigned_below hopened horder hd hplaced hfailed hplan hy hyplaced hbelow).1
      exact absurd (hmade.symm.trans hunmade) nofun
    obtain ⟨place, r, n, hplace, hrn, rfl, rfl, hapart⟩ := helsewhere ((c.destination_iff hopened hy).1 hq) hnot
    exact liesIn_destination hplace hrn hapart

end Failed

/-- Below a directory that failed before directories get their modes, nothing changes when they do, and everything is
    left out. -/
theorem Course.leavesOut (hplan : plan.options = options) {names : RealPath}
    (hnames : names.IsProper) (hroot : plan.root = names.toPath) (htarget : root = plan.root)
    (hstopped : s.stopped = false)
    (hbefore : ∀ (path : String) (p : Path), sanitize root path = .ok p → ∀ call ∈ s.calls, call.goesInto p = false)
    {d y : Slot} (hd : d ∈ c.assigned) (hdirectory : d.entry.isFile = false) (hfailed : d.outcome = some (.failed kind message))
    (hy : y ∈ c.assigned) (hbelow : Manifest.IsOnTheWay d.entry.path y.entry.path) :
    y.made = false ∧ report.LeavesOut options s' kind d.report y.report := by
  subst htarget
  have hreport : report.target = plan.root := congrArg Report.target c.report
  have hdplaced := c.mem_placed hd hdirectory
  cases hsanitize : sanitize plan.root y.entry.path with
  | error err =>
    -- the entry failed for its own path
    obtain ⟨hmade, ho⟩ := c.outcome_of_rejected hopened hy hsanitize
    obtain ⟨fault, rfl⟩ := sanitize_eq_error hsanitize
    have hout : y.report.outcome = .ofError (.unsafePath y.entry.path fault) := by
      rw [Slot.report, ho]
      rfl
    refine ⟨hmade, by rw [hout]; rfl, fun _ _ => ?_, fun q hq => ?_⟩
    · exact ⟨.path, _, hout, .inr ⟨rfl, _, hreport ▸ hsanitize⟩⟩
    · rw [hreport] at hq
      cases hq.symm.trans hsanitize
  | ok q =>
    obtain ⟨p, hp⟩ := exists_sanitize_above hsanitize hbelow
    have hdestination := (c.destination_iff_of_placed hopened hdplaced).2 hp
    have hplaced : d.IsPlaced := ⟨hdirectory, by rw [hdestination]; exact Option.some_ne_none p⟩
    have hyplaced : y.destination ≠ none := by
      rw [(c.destination_iff hopened hy).2 hsanitize]
      exact Option.some_ne_none q
    obtain ⟨hmade, hcases⟩ :=
      c.assigned_below hopened horder hdplaced hplaced hfailed hplan hy hyplaced hbelow
    refine ⟨hmade, ?_, fun hcancelled hgoes => ?_, fun q' hq' => ?_⟩
    · rcases hcases with ⟨hopen, -⟩ | ⟨kind', message', ho, -⟩
      · rw [Slot.report, hopen]
        rfl
      · rw [Slot.report, ho]
        rfl
    · have hgo := c.not_halts hplan hstopped hcancelled hgoes
      rcases hcases with ⟨-, hhalts⟩ | ⟨kind', message', ho, hkind⟩
      · exact absurd hhalts hgo
      · exact ⟨kind', message', by rw [Slot.report, ho]; rfl, .inl (hkind.resolve_left hgo)⟩
    · rw [hreport] at hq' ⊢
      refine ⟨p, hp, ?_, fun call hcall => ?_⟩
      · rw [hroot] at hp hq'
        exact liesIn_of_isOnTheWay hnames hp hq' hbelow
      · exact (c.calls_avoid hopened horder hdplaced hplaced hfailed hplan hnames hroot hdestination hcall).elim
          (hbefore _ p hp call) id

end Run

/-! ## Extraction -/

/-- **Nothing below a directory that failed.** If a run of one worker reports that a directory failed, be it for its path
    or where it should go, every entry below it, at any depth, is left out. A directory whose mode was refused is
    no such directory: that is found out last, when its entries are in place. -/
theorem extract_leaves_out {options : ExtractOptions} (_ : options.workers ≤ 1) (schedule : List Nat) {bytes : Bytes}
    {image : Image} (hparse : Image.parse bytes = .ok image) (target : Option Path) (fs : FileSystem) {report : Report}
    {s : RunState} (h : extract options schedule image target (.start fs options) = (.ok report, s))
    {r r' : EntryReport} (hr : r ∈ report.entries) (hdirectory : r.kind = .directory) {kind : ErrorKind}
    {message : String} (hfailed : r.outcome = .failed kind message) (hkept : ¬r.ModeRefused report.target)
    (hr' : r' ∈ report.entries) (hbelow : Manifest.IsOnTheWay r.path r'.path) :
    report.LeavesOut options s kind r r' := by
  obtain ⟨plan, slots, t, hplan, ⟨names, hnames, hroot⟩, hslots, ⟨log, asked, hleads, hmarks, hprepare, hasked⟩, ⟨c⟩⟩ :=
    extract_course h
  have hopened := slotsFor_opened hslots
  have horder : Entry.InOrder (image.manifest.select options.filter) := Image.inOrder_select hparse
  have htarget : report.target = plan.root := congrArg Report.target c.report
  have hentries : report.entries = c.finished.map (·.report) := congrArg Report.entries c.report
  rw [hentries] at hr hr'
  obtain ⟨d', hd', rfl⟩ := List.mem_map.1 hr
  obtain ⟨y', hy', rfl⟩ := List.mem_map.1 hr'
  obtain ⟨d, hd, hdfinishes⟩ := exists_of_forall₂ c.finishes hd'
  obtain ⟨y, hy, hyfinishes⟩ := exists_of_forall₂ c.finishes hy'
  -- neither slot changes in the end
  obtain rfl : d' = d := (c.eq_or_refused hopened hd hdfinishes).resolve_right (htarget ▸ hkept)
  have hyentry : y'.entry = y.entry := by rcases hyfinishes with rfl | ⟨-, p, e, -, rfl⟩ <;> rfl
  have hbelow' : Manifest.IsOnTheWay d'.entry.path y.entry.path := hyentry ▸ hbelow
  have houtcome : d'.outcome = some (.failed kind message) := by
    rw [Slot.report] at hfailed
    cases ho : d'.outcome with
    | none =>
      rw [ho] at hfailed
      cases hfailed
    | some o =>
      rw [ho] at hfailed
      exact congrArg some hfailed
  have hbefore : ∀ (path : String) (p : Path), sanitize plan.root path = .ok p →
      ∀ call ∈ t.calls, call.goesInto p = false := by
    intro path p hp call hcall
    rw [hroot] at hp hprepare
    obtain ⟨hproper, rfl⟩ := sanitize_eq_ok hnames hp
    have hlonger : names.length < (names ++ entryNames path).length := by
      rw [List.length_append]
      exact Nat.lt_add_of_pos_right (List.length_pos_iff.2 (entryNames_ne_nil path))
    rw [hleads.calls, hasked] at hcall
    obtain ⟨x, hx, rfl⟩ := mem_fileCalls_map_onFile.1 hcall
    exact ((prepareRoot_avoids (RealPath.isProper_append.2 ⟨hnames, hproper⟩) hnames hlonger).ends hprepare).1 x hx
  have hstopped : t.stopped = false := by
    have hledger := hleads.ledger
    rw [hmarks] at hledger
    exact congrArg Ledger.stopped hledger
  obtain ⟨hmade, hleft⟩ := c.leavesOut hopened horder hplan hnames hroot rfl hstopped hbefore hd
    (Entry.isFile_eq_false_iff.2 hdirectory) houtcome hy hbelow'
  cases hyfinishes.resolve_right fun hrefused => Bool.false_ne_true (hmade.symm.trans hrefused.1)
  exact hleft

/-- A file stands where the directory should go, so what lies in the directory fails like it. -/
theorem extract_leaves_out_below_conflict :
    let options : ExtractOptions := { workers := 1 }
    let image : Image := .written ⟨[.directory "d" none, .file "d/f" 0 1 (.of [120]) none]⟩ [120]
    let fs := rootWith [([utf8 "out", utf8 "d"], .file 0o644 [])]
    let r : EntryReport := ⟨"d", .directory, .ofError (.conflict (.ofString "/out/d") .nonDirectory)⟩
    let r' : EntryReport := ⟨"d/f", .file, .failed .conflict "parent directory 'd' could not be created"⟩
    options.workers ≤ 1 ∧ Image.parse image.source = .ok image ∧
      ∃ report s, extract options [] image (some (.ofString "/out")) (.start fs options) = (.ok report, s) ∧
        r ∈ report.entries ∧ r.kind = .directory ∧ ¬r.ModeRefused report.target ∧ r' ∈ report.entries ∧
        Manifest.IsOnTheWay r.path r'.path ∧ report.LeavesOut options s .conflict r r' := by
  intro options image fs r r'
  have hvalid : ∀ d : Digest, Manifest.validate ⟨[.directory "d" none, .file "d/f" 0 1 d none]⟩ 1 = .ok () := by
    intro d
    cbv
  have hparse : Image.parse image.source = .ok image :=
    Image.parse_written (by decide) (by decide) (hvalid _) (by decide)
  have hentries : (extract options [] image (some (.ofString "/out")) (.start fs options)).1.toOption.map
      (fun r => (r.target, r.entries)) = some (.ofString "/out", [r, r']) := by decide +kernel
  obtain ⟨report, hrun, -, hlist⟩ := exists_entries hentries
  have hr : r ∈ report.entries := hlist ▸ List.mem_cons_self
  have hr' : r' ∈ report.entries := hlist ▸ List.mem_cons_of_mem _ List.mem_cons_self
  have hkept : ¬r.ModeRefused report.target := by
    rintro ⟨-, p, e, -, hout⟩
    cases (Outcome.failed.inj hout).1
  have hbelow : Manifest.IsOnTheWay r.path r'.path := ⟨by decide, ['f'], by decide⟩
  exact ⟨by decide, hparse, report, _, hrun, hr, rfl, hkept, hr', hbelow,
    extract_leaves_out (by decide) [] hparse (some (.ofString "/out")) fs hrun hr rfl rfl hkept hr' hbelow⟩

/-- Whoever listens removes a directory when its file is done, so its mode is refused, and the file was created. -/
theorem extract_fails_above_created :
    let listener : ProgressListener := fun p fs =>
      (if p.current = "d/f" then fs.eraseTree [utf8 "out", utf8 "d"] else fs, false)
    let options : ExtractOptions := { workers := 1, onProgress := some listener }
    let image : Image := .written ⟨[.directory "d" (some 0o700), .file "d/f" 0 1 (.of [120]) none]⟩ [120]
    Image.parse image.source = .ok image ∧
      ∃ report s, extract options [] image (some (.ofString "/out")) (.start (rootWith []) options) = (.ok report, s) ∧
        report.entries = [⟨"d", .directory, .ofError (.fs (.permissions (.ofString "/out/d") .notFound))⟩,
          ⟨"d/f", .file, .created⟩] ∧
        ¬∀ r ∈ report.entries, r.kind = .directory → r.outcome.isFailed = true → ∀ r' ∈ report.entries,
          Manifest.IsOnTheWay r.path r'.path → r'.outcome.isFailure = true := by
  intro listener options image
  have hvalid : ∀ d : Digest, Manifest.validate ⟨[.directory "d" (some 0o700), .file "d/f" 0 1 d none]⟩ 1 = .ok () := by
    intro d
    cbv
  have hparse : Image.parse image.source = .ok image :=
    Image.parse_written (by decide) (by decide) (hvalid _) (by decide)
  have hentries : (extract options [] image (some (.ofString "/out")) (.start (rootWith []) options)).1.toOption.map
      (fun r => (r.target, r.entries)) = some (.ofString "/out",
        [⟨"d", .directory, .ofError (.fs (.permissions (.ofString "/out/d") .notFound))⟩, ⟨"d/f", .file, .created⟩]) := by
    decide +kernel
  obtain ⟨report, hrun, -, hlist⟩ := exists_entries hentries
  refine ⟨hparse, report, _, hrun, hlist, fun hall => ?_⟩
  rw [hlist] at hall
  cases hall _ List.mem_cons_self rfl rfl _ (List.mem_cons_of_mem _ List.mem_cons_self) ⟨by decide, ['f'], by decide⟩

end TreeImage
