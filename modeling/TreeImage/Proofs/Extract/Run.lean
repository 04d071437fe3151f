import TreeImage.Proofs.Extract.FilePass

set_option autoImplicit false

/-! # A whole run

The parts of a run, one after the other: the preparation roots a plan, the directory pass and the file
pass keep it rooted, and in the end every slot that says that its entry is in place is right. -/

namespace TreeImage

open FileSystem

variable {α : Type} {names real : RealPath} {fs fs' : FileSystem} {options : ExtractOptions}
  (hquiet : options.IsQuiet) {image : Image} {plan : RunPlan} {slot : Slot} {slots : List Slot}
  {entries : List Entry} {s s' : RunState}

/-- What a part of a run does that is alone. -/
theorem Program.Obeys.run_tidy {p : Program Session α} {post : α → Unit → RunState → Prop} {a : α}
    (hp : p.Obeys ((tidy names).inSession hquiet) post () s)
    (h : p.run (RunState.handler options) s = (a, s')) : post a () s' ∧ s.Confined names s' := by
  obtain ⟨⟨⟩, hpost, -, hpath, -⟩ := hp.run trivial
  rw [h] at hpost hpath
  exact ⟨hpost, RunState.confined_of_reach hquiet (fun _ _ _ _ hmay _ _ => hmay) hpath.reach⟩

/-! ## Preparation -/

/-- Once the root is prepared, the plan is rooted. -/
theorem makePlan_obeys (hnames : names.IsProper)
    (hslots : slotsFor names.toPath options.strict entries = .ok slots) :
    (do
      match ← Session.onFiles (prepareRoot names.toPath) with
      | .error e => return .error e
      | .ok realRoot => return .ok (planFor options names.toPath realRoot slots, slots) :
      Program Session (Except ExtractError (RunPlan × List Slot))).Obeys ((tidy names).inSession hquiet)
      (fun result _ s' => ∀ plan slots', result = .ok (plan, slots') → plan.options = options ∧
        ∃ real, plan.Rooted names real s'.fs ∧ Ready plan.root real s'.fs entries slots') () s := by
  refine (prepareRoot_obeys hnames).onFiles.bind ?_
  rintro (e | realRoot) ⟨⟩ s' hprepared
  · rintro _ _ ⟨⟩
  · obtain ⟨real, hleads, rfl⟩ := hprepared realRoot rfl
    rintro _ _ ⟨⟩
    exact ⟨rfl, real, ⟨hnames, rfl, rfl, hleads⟩, slotsFor_eq_ok hslots⟩

include hquiet in
/-- The preparation touches nothing, or it resolves a root and stays confined to it. A plan that it makes
    is rooted, with a sound slot for every selected entry. -/
theorem prepare_run {cwd executable : Path} {target : Option Path}
    {result : Except ExtractError (RunPlan × List Slot)}
    (h : (prepare options cwd executable image target).run (RunState.handler options) s = (result, s')) :
    (s'.fs = s.fs ∧ s'.trace = s.trace ∧ ∃ e, result = .error e) ∨
      ∃ names, names.IsProper ∧
        resolveRoot cwd executable options.defaultRoot target = .ok names.toPath ∧ s.Confined names s' ∧
        ∀ plan slots, result = .ok (plan, slots) → plan.options = options ∧
          ∃ real, plan.Rooted names real s'.fs ∧
            Ready plan.root real s'.fs (image.manifest.select options.filter) slots := by
  obtain ⟨hfs, htrace⟩ := s.fs_lookAtToken options.cancelToken
  -- the first call asks whether the run is cancelled
  have hlook : (prepare options cwd executable image target).run (RunState.handler options) s =
      (if (s.lookAtToken options.cancelToken).1 = true then .done (.error .cancelled) else _ :
        Program Session (Except ExtractError (RunPlan × List Slot))).run (RunState.handler options)
        (s.lookAtToken options.cancelToken).2 := rfl
  rw [hlook] at h
  split at h
  · cases h
    exact .inl ⟨hfs, htrace, _, rfl⟩
  · cases hroot : resolveRoot cwd executable options.defaultRoot target with
    | error e =>
      simp only [hroot] at h
      cases h
      exact .inl ⟨hfs, htrace, _, rfl⟩
    | ok root =>
      cases hslots : slotsFor root options.strict (image.manifest.select options.filter) with
      | error e =>
        simp only [hroot, hslots] at h
        cases h
        exact .inl ⟨hfs, htrace, _, rfl⟩
      | ok slots =>
        simp only [hroot, hslots] at h
        obtain ⟨names, hnames, rfl⟩ := resolveRoot_eq_ok hroot
        obtain ⟨hplan, hconfined⟩ := (makePlan_obeys hquiet hnames hslots).run_tidy hquiet h
        have hlooked : s.Confined names (s.lookAtToken options.cancelToken).2 :=
          RunState.confined_tacit (c := .isCancelled) hquiet trivial s
        exact .inr ⟨names, hnames, rfl, hlooked.trans hconfined, hplan⟩

/-! ## Entries in place -/

/-- The destination of the entry is a regular file with this content, and `q` is its real place. -/
def Entry.Holds (root : Path) (fs : FileSystem) (e : Entry) (q : RealPath) (content : Bytes) : Prop :=
  ∃ p mode, sanitize root e.path = .ok p ∧ fs.find false p = .ok (q, .file mode content)

/-- The entry is in place: the destination of a directory leads to one, and that of a file is a regular
    file. Its content is that of the entry, or of another one with the same real place. -/
structure Entry.Stands (root : Path) (fs : FileSystem) (entries : List Entry) (e : Entry) : Prop where
  directory : e.isFile = false → ∃ p d, sanitize root e.path = .ok p ∧ fs.LeadsTo p d
  file : e.isFile = true → ∃ q content, e.Holds root fs q content ∧
    ∃ e' ∈ entries, e'.isFile = true ∧ e'.Holds root fs q content ∧ Digest.of content = e'.digest

theorem Entry.Holds.keeps {e : Entry} {q : RealPath} {content : Bytes} (hnames : names.IsProper)
    (hkeeps : Keeps fs fs') (hfiles : KeepsFiles fs fs') (h : e.Holds names.toPath fs q content) :
    e.Holds names.toPath fs' q content := by
  obtain ⟨p, mode, hp, hfind⟩ := h
  obtain ⟨r, hproper, rfl⟩ := exists_destination_eq hnames hp
  obtain ⟨d, hd⟩ := names_of_find_eq_ok hproper hfind
  obtain ⟨rfl, hget⟩ := hd.find_eq_ok hfind
  have hname := hd.isAcceptable_of_find hfind
  exact ⟨_, mode, hp, (hkeeps.names hd).find hname (hfiles _ mode content hget)⟩

theorem Entry.Stands.keeps {e : Entry} (hnames : names.IsProper) (hkeeps : Keeps fs fs')
    (hfiles : KeepsFiles fs fs') (h : e.Stands names.toPath fs entries) :
    e.Stands names.toPath fs' entries := by
  constructor
  · intro hdir
    obtain ⟨p, d, hp, hd⟩ := h.directory hdir
    exact ⟨p, d, hp, hkeeps.leadsTo hd⟩
  · intro hfile
    obtain ⟨q, content, hholds, e', he', hfile', hholds', hdigest⟩ := h.file hfile
    exact ⟨q, content, hholds.keeps hnames hkeeps hfiles, e', he', hfile',
      hholds'.keeps hnames hkeeps hfiles, hdigest⟩

/-- If the slot says that its entry is in place, it is. -/
def Slot.Right (root : Path) (fs : FileSystem) (entries : List Entry) (slot : Slot) : Prop :=
  ∀ o, slot.outcome = some o → o.InPlace → slot.entry.Stands root fs entries

/-- What a report says of its entries is right, one slot for each of them. -/
def Report.Right (root : Path) (fs : FileSystem) (entries : List Entry) (report : Report) : Prop :=
  ∃ (slots : List Slot) (bytesWritten : Nat) (cancelled : Bool),
    report = .new root (slots.map (·.report)) bytesWritten cancelled ∧ slots.map (·.entry) = entries ∧
    ∀ slot ∈ slots, slot.Right root fs entries

theorem Slot.Aims.holds {root : Path} {q : RealPath} {mode : UInt32} {content : Bytes}
    (haims : slot.Aims fs q) (hkeeps : Keeps fs fs')
    (hdestination : ∀ p, slot.destination = some p → sanitize root slot.entry.path = .ok p)
    (hget : fs'.get? q = some (.file mode content)) : slot.entry.Holds root fs' q content := by
  obtain ⟨p, d, hp, hd, hname, rfl⟩ := haims
  exact ⟨p, mode, hdestination p hp, (hkeeps.names hd).find hname hget⟩

/-! ## Results -/

theorem map_entry_assignResults (slots : List Slot) (results : List (Option Outcome)) :
    (RunPlan.assignResults slots results).map (·.entry) = slots.map (·.entry) := by
  induction slots generalizing results with
  | nil => rfl
  | cons slot slots ih =>
    rw [RunPlan.assignResults]
    split
    · rw [List.map_cons, List.map_cons, ih]
    · rw [List.map_cons, List.map_cons, ih]

/-- What a slot is after the results were handed out. -/
theorem mem_assignResults {results : List (Option Outcome)}
    (h : slot ∈ RunPlan.assignResults slots results) :
    (slot ∈ slots ∧ slot.isPending = false) ∨ ∃ (i : Nat) (slot' : Slot),
      (slots.filter (·.isPending))[i]? = some slot' ∧
      slot = { slot' with outcome := results[i]?.join } := by
  induction slots generalizing results with
  | nil => exact absurd h List.not_mem_nil
  | cons head slots ih =>
    rw [RunPlan.assignResults] at h
    cases hpending : head.isPending with
    | true =>
      rw [hpending, if_pos rfl] at h
      rw [List.filter_cons_of_pos hpending]
      rcases List.mem_cons.1 h with rfl | h
      · exact .inr ⟨0, head, rfl, by rw [List.head?_eq_getElem?]⟩
      · rcases ih h with ⟨hmem, hnot⟩ | ⟨i, slot', hget, rfl⟩
        · exact .inl ⟨List.mem_cons_of_mem _ hmem, hnot⟩
        · exact .inr ⟨i + 1, slot', hget, by rw [List.getElem?_tail]⟩
    | false =>
      rw [hpending, if_neg Bool.false_ne_true] at h
      rw [List.filter_cons_of_neg (by rw [hpending]; exact Bool.false_ne_true)]
      rcases List.mem_cons.1 h with rfl | h
      · exact .inl ⟨List.mem_cons_self .., hpending⟩
      · rcases ih h with ⟨hmem, hnot⟩ | hassigned
        · exact .inl ⟨List.mem_cons_of_mem _ hmem, hnot⟩
        · exact .inr hassigned

/-! ## Passes -/

/-- A sound slot is right if it is not that of a file that was dealt with. -/
theorem Slot.Sound.right {root : Path} (hsound : slot.Sound root real fs)
    (hwaiting : slot.entry.isFile = true → ∀ o, slot.outcome = some o → ¬o.InPlace) :
    slot.Right root fs entries := by
  intro o ho hplace
  constructor
  · intro hdir
    obtain ⟨p, d, hp, hd⟩ := hsound.directory hdir o ho hplace
    exact ⟨p, d, hsound.destination p hp, hd⟩
  · intro hfile
    exact absurd hplace (hwaiting hfile o ho)

/-- The pending slots of a run: files among the entries, with sound destinations. -/
structure Pending (root : Path) (entries : List Entry) (pending : List Slot) : Prop where
  entry : ∀ slot ∈ pending, slot.entry ∈ entries
  file : ∀ slot ∈ pending, slot.entry.isFile = true
  destination : ∀ slot ∈ pending, ∀ p, slot.destination = some p → sanitize root slot.entry.path = .ok p

theorem Ready.pending {root : Path} (hready : Ready root real fs entries slots) :
    Pending root entries (slots.filter (·.isPending)) := by
  have hmem : ∀ slot ∈ slots.filter (·.isPending), slot ∈ slots := fun _ h => (List.mem_filter.1 h).1
  constructor
  · intro slot hslot
    rw [← hready.entries]
    exact List.mem_map_of_mem (hmem slot hslot)
  · intro slot hslot
    have hpending := (List.mem_filter.1 hslot).2
    rw [Slot.isPending, Bool.and_eq_true, Bool.and_eq_true] at hpending
    exact hpending.1.1
  · exact fun slot hslot => (hready.sound slot (hmem slot hslot)).destination

/-- Entries that are apart are apart while they are pending. -/
theorem Pending.namesApart {root : Path} {pending : List Slot} (h : Pending root entries pending)
    (hapart : NamesApart (entries.filter (·.isFile))) : NamesApart (pending.map (·.entry)) := by
  refine hapart.mono ?_
  intro e he
  obtain ⟨slot, hslot, rfl⟩ := List.mem_map.1 he
  exact List.mem_filter.2 ⟨h.entry slot hslot, h.file slot hslot⟩

/-- The entry of a file whose place is settled is in place. -/
theorem Pending.stands {root : Path} {pending : List Slot} {q : RealPath}
    (h : Pending root entries pending) (hslot : slot ∈ pending) (haims : slot.Aims fs q)
    (hkeeps : Keeps fs fs') (hsettled : Settled fs pending fs' q) :
    slot.entry.Stands root fs' entries := by
  constructor
  · intro hdir
    exact absurd (hdir.symm.trans (h.file slot hslot)) Bool.false_ne_true
  · intro _
    obtain ⟨winner, hwinner, haims', mode, content, hget, hdigest⟩ := hsettled
    have hholds := haims.holds hkeeps (h.destination slot hslot) hget
    have hholds' := haims'.holds hkeeps (h.destination winner hwinner) hget
    exact ⟨q, content, hholds, winner.entry, h.entry winner hwinner, h.file winner hwinner, hholds',
      hdigest⟩

include hquiet in
/-- After the file pass, the slots with their results are right. -/
theorem right_of_files (schedule : List Nat) (hplan : plan.options = options)
    (hroot : plan.Rooted names real s.fs) (hready : Ready plan.root real s.fs entries slots)
    (hapart : 1 < options.workers → NamesApart (entries.filter (·.isFile)))
    {results : List (Option Outcome)}
    (h : plan.files schedule image (slots.filter (·.isPending)) s = (results, s')) :
    SameFrame s.fs s'.fs ∧ s.Confined names s' ∧
      ∀ slot ∈ RunPlan.assignResults slots results,
        slot.Right plan.root s'.fs entries ∧ slot.MadeInside real s'.fs := by
  have hpending := hready.pending
  obtain ⟨hframe, hconfined, -, hin⟩ := files_settled hquiet schedule hplan hroot hpending.destination
    (fun hmany => hpending.namesApart (hapart hmany)) h
  refine ⟨hframe, hconfined, ?_⟩
  intro slot hslot
  rcases mem_assignResults hslot with ⟨hmem, -⟩ | ⟨i, slot', hget, rfl⟩
  · have hsound := (hready.sound slot hmem).keeps hframe.keeps
    exact ⟨hsound.right (hready.waiting slot hmem), hsound.made⟩
  · have hslot' := List.mem_of_getElem? hget
    have hsound := (hready.sound slot' (List.mem_filter.1 hslot').1).keeps hframe.keeps
    refine ⟨?_, hsound.made⟩
    intro o ho hplace
    have hresult : results[i]? = some (some o) := Option.join_eq_some_iff.1 ho
    obtain ⟨slot, q, hslot, haims, hsettled⟩ := hin i o hresult hplace
    obtain rfl := Option.some.inj (hget.symm.trans hslot)
    have hstands : slot'.entry.Stands plan.root s'.fs entries :=
      hpending.stands hslot' haims hframe.keeps hsettled
    exact hstands

/-- A slot that was right is right after it was finished. -/
theorem Slot.Right.failsOrIs {slot' : Slot} (hnames : names.IsProper) (hkeeps : Keeps fs fs')
    (hfiles : KeepsFiles fs fs') (hslot : slot.FailsOrIs slot')
    (h : slot.Right names.toPath fs entries) :
    slot'.entry = slot.entry ∧ slot'.Right names.toPath fs' entries := by
  rcases hslot with rfl | ⟨hentry, o, ho, hfailed⟩
  · refine ⟨rfl, ?_⟩
    intro o ho hplace
    exact (h o ho hplace).keeps hnames hkeeps hfiles
  · refine ⟨hentry, ?_⟩
    intro o' ho' hplace
    obtain rfl := Option.some.inj (ho.symm.trans ho')
    rw [(Outcome.inPlace_iff.1 hplace).1] at hfailed
    cases hfailed

theorem right_of_finished {slots' : List Slot} (hnames : names.IsProper) (hkeeps : Keeps fs fs')
    (hfiles : KeepsFiles fs fs') (hforall : List.Forall₂ Slot.FailsOrIs slots slots')
    (hright : ∀ slot ∈ slots, slot.Right names.toPath fs entries) :
    slots'.map (·.entry) = slots.map (·.entry) ∧
      ∀ slot ∈ slots', slot.Right names.toPath fs' entries := by
  induction hforall with
  | nil => exact ⟨rfl, fun _ h => absurd h List.not_mem_nil⟩
  | cons hslot _ ih =>
    obtain ⟨hhead, htail⟩ := List.forall_mem_cons.1 hright
    obtain ⟨hentry, hhead'⟩ := hhead.failsOrIs hnames hkeeps hfiles hslot
    obtain ⟨hentries, htail'⟩ := ih htail
    refine ⟨?_, List.forall_mem_cons.2 ⟨hhead', htail'⟩⟩
    rw [List.map_cons, List.map_cons, hentry, hentries]

/-- The end of a run reports the slots that it was given, or that they failed, and touches no file. -/
theorem conclude_finishes {bytesWritten : Nat} (hleads : s.fs.LeadsTo names.toPath real)
    (hmade : ∀ slot ∈ slots, slot.MadeInside real s.fs) :
    (plan.conclude slots bytesWritten).Obeys ((tidy names).inSession hquiet)
      (fun report _ s' => Keeps s.fs s'.fs ∧ KeepsFiles s.fs s'.fs ∧ ∃ slots' cancelled,
        List.Forall₂ Slot.FailsOrIs slots slots' ∧
        report = .new plan.root (slots'.map (·.report)) bytesWritten cancelled) () s := by
  refine (finishDirectories_obeys hquiet hleads hmade).bind ?_
  rintro slots' ⟨⟩ t ⟨hkeeps, hfiles, hforall⟩
  have hlooks : Session.isCancelled.IsTacit := ⟨trivial, fun _ => trivial⟩
  refine Program.Obeys.bind hlooks.obeys ?_
  rintro cancelled ⟨⟩ u ⟨-, hu⟩
  obtain hu : u.fs = t.fs := hu
  rw [← hu] at hkeeps hfiles
  exact ⟨hkeeps, hfiles, slots', cancelled, hforall, rfl⟩

/-- The end of a run reports slots that are right if the ones that it was given are. -/
theorem conclude_obeys {bytesWritten : Nat} (hnames : names.IsProper) (hroot : plan.root = names.toPath)
    (hleads : s.fs.LeadsTo names.toPath real) (hentries : slots.map (·.entry) = entries)
    (hright : ∀ slot ∈ slots, slot.Right plan.root s.fs entries ∧ slot.MadeInside real s.fs) :
    (plan.conclude slots bytesWritten).Obeys ((tidy names).inSession hquiet)
      (fun report _ s' => report.Right plan.root s'.fs entries) () s := by
  refine (conclude_finishes hquiet hleads fun slot hslot => (hright slot hslot).2).imp ?_
  rintro report ⟨⟩ t ⟨hkeeps, hfiles, slots', cancelled, hforall, rfl⟩
  rw [hroot] at hright ⊢
  obtain ⟨hmap, hright'⟩ := right_of_finished hnames hkeeps hfiles hforall
    fun slot hslot => (hright slot hslot).1
  exact ⟨slots', bytesWritten, cancelled, rfl, hmap.trans hentries, hright'⟩

include hquiet in
/-- The passes of a run are confined, and a report that they end in is right. -/
theorem execute_run (schedule : List Nat) (hplan : plan.options = options)
    (hroot : plan.Rooted names real s.fs) (hready : Ready plan.root real s.fs entries slots)
    (hapart : 1 < options.workers → NamesApart (entries.filter (·.isFile)))
    {result : Except ExtractError Report} (h : plan.execute schedule image slots s = (result, s')) :
    s.Confined names s' ∧ ∀ report, result = .ok report → report.Right plan.root s'.fs entries := by
  rw [RunPlan.execute] at h
  cases hdirectories : (plan.directories slots).run (RunState.handler options) s with
  | mk passed s₁ =>
    obtain ⟨⟨-, hpassed⟩, hconfined₁⟩ :=
      (directories_obeys hquiet hroot hready).run_tidy hquiet hdirectories
    have hroot₁ := hroot.keeps hconfined₁.files.keeps
    rw [hplan, hdirectories] at h
    cases passed with
    | error e =>
      cases h
      exact ⟨hconfined₁, nofun⟩
    | ok slots₁ =>
      cases hfiles : plan.files schedule image (slots₁.filter (·.isPending)) s₁ with
      | mk results s₂ =>
        obtain ⟨hframe, hconfined₂, hright⟩ := right_of_files hquiet schedule hplan hroot₁
          (hpassed slots₁ rfl) hapart hfiles
        have hentries := (map_entry_assignResults slots₁ results).trans (hpassed slots₁ rfl).entries
        simp only [hfiles] at h
        cases hfatal : s₂.fatal with
        | some cause =>
          simp only [hfatal] at h
          cases h
          exact ⟨hconfined₁.trans hconfined₂, nofun⟩
        | none =>
          simp only [hfatal] at h
          cases h
          obtain ⟨hreport, hconfined₃⟩ := (conclude_obeys hquiet hroot.properNames hroot.root
            (hframe.keeps.leadsTo hroot₁.leads) hentries hright).run_tidy hquiet rfl
          refine ⟨(hconfined₁.trans hconfined₂).trans hconfined₃, ?_⟩
          rintro _ ⟨⟩
          exact hreport

/-! ## Extraction -/

/-- A run ends in the error of its preparation, or executes the plan that was prepared. -/
theorem extract_prepared {schedule : List Nat} {target : Option Path} {result : Except ExtractError Report}
    (h : extract options schedule image target s = (result, s')) :
    (∃ err, (prepare options s.fs.cwd.toPath s.fs.executable image target).run (RunState.handler options) s =
      (.error err, s') ∧ result = .error err) ∨
    ∃ plan slots s₁, (prepare options s.fs.cwd.toPath s.fs.executable image target).run (RunState.handler options) s =
        (.ok (plan, slots), s₁) ∧
      plan.execute schedule image slots s₁ = (result, s') := by
  rw [extract] at h
  rcases hprepare : (prepare options s.fs.cwd.toPath s.fs.executable image target).run (RunState.handler options) s with
    ⟨_ | ⟨plan, slots⟩, s₁⟩
  · simp only [hprepare] at h
    cases h
    exact .inl ⟨_, rfl, rfl⟩
  · simp only [hprepare] at h
    exact .inr ⟨plan, slots, s₁, rfl, h⟩

include hquiet in
/-- A run touches nothing, or it resolves a root and stays confined to it, and a report that it ends in is
    right. -/
theorem extract_run (schedule : List Nat) {target : Option Path}
    (hapart : 1 < options.workers →
      NamesApart ((image.manifest.select options.filter).filter (·.isFile)))
    {result : Except ExtractError Report} (h : extract options schedule image target s = (result, s')) :
    (s'.fs = s.fs ∧ s'.trace = s.trace ∧ ∃ e, result = .error e) ∨
      ∃ names, names.IsProper ∧ resolveRoot s.fs.cwd.toPath s.fs.executable options.defaultRoot target =
          .ok names.toPath ∧
        s.Confined names s' ∧ ∀ report, result = .ok report →
          report.Right names.toPath s'.fs (image.manifest.select options.filter) := by
  obtain ⟨err, hprepare, rfl⟩ | ⟨plan, slots, s₁, hprepare, hexecute⟩ := extract_prepared h
  · rcases prepare_run hquiet hprepare with ⟨hfs, htrace, -⟩ | ⟨names, hnames, hroot, hconfined, -⟩
    · exact .inl ⟨hfs, htrace, err, rfl⟩
    · exact .inr ⟨names, hnames, hroot, hconfined, nofun⟩
  · rcases prepare_run hquiet hprepare with ⟨-, -, _, heq⟩ | ⟨names, hnames, hroot, hconfined, hplan⟩
    · cases heq
    · obtain ⟨hoptions, real, hrooted, hready⟩ := hplan plan slots rfl
      obtain ⟨hconfined', hreport⟩ := execute_run hquiet schedule hoptions hrooted hready hapart hexecute
      rw [hrooted.root] at hreport
      exact .inr ⟨names, hnames, hroot, hconfined.trans hconfined', hreport⟩

end TreeImage
