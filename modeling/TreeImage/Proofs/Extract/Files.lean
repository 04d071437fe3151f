import TreeImage.Proofs.Extract.Directories
import TreeImage.Proofs.Extract.FileClaims

set_option autoImplicit false

/-! # The file pass

Every part of `writeFile` keeps to the discipline of the file pass, and when it reports that the entry is
in place, the place that the entry is meant for is settled. Since a settled place stays settled, this is
still so when all workers are done. -/

namespace TreeImage

open FileSystem

variable {α : Type} {real r : RealPath} {start fs : FileSystem} {pending : List Slot} {slot : Slot}
  {k : FileClaim} {p destination : Path} {post : α → FileClaim → FileSystem → Prop} {entry : String}

/-! ## Calls -/

/-- A call that takes `fs` to `fs'` is allowed, and the program goes on from there. -/
def Continues (real : RealPath) (start : FileSystem) (pending : List Slot)
    (post : α → FileClaim → FileSystem → Prop) (k : FileClaim) (fs fs' : FileSystem)
    (next : Program Files α) : Prop :=
  ∃ k', k'.Fits real start pending fs' ∧ FileClaim.Move real start pending k k' fs fs' ∧
    next.Obeys (filing real start pending) post k' fs'

theorem filing_read {f : Except Refusal Bytes → Program Files α}
    (h : ∀ fs', (filing real start pending).rely k fs fs' → k.Fits real start pending fs' →
      Continues real start pending post k fs' fs' (f (fs'.read p))) :
    (Files.read p >>= f).Obeys (filing real start pending) post k fs := by
  intro fs' hrely hfit
  obtain ⟨k', hfit', hmove, hnext⟩ := h fs' hrely hfit
  exact ⟨k', hmove, hfit', hnext⟩

/-- A change is refused, or made. -/
theorem filing_settle {fs' : FileSystem} {change : Except Refusal FileSystem}
    {f : Except Refusal Unit → Program Files α}
    (herror : ∀ e, Continues real start pending post k fs' fs' (f (.error e)))
    (hok : ∀ fs'', change = .ok fs'' → Continues real start pending post k fs' fs'' (f (.ok ()))) :
    ∃ k', FileClaim.Move real start pending k k' fs' (fs'.settle change).2 ∧
      k'.Fits real start pending (fs'.settle change).2 ∧
      (f (fs'.settle change).1).Obeys (filing real start pending) post k' (fs'.settle change).2 := by
  obtain ⟨k', hfit, hmove, hnext⟩ := settle_cases
    (P := fun reply fs'' => Continues real start pending post k fs' fs'' (f reply))
    (fun e _ => herror e) hok
  exact ⟨k', hmove, hfit, hnext⟩

theorem filing_setMode {f : Except Refusal Unit → Program Files α} {mode : UInt32}
    (herror : ∀ fs' e, k.Fits real start pending fs' →
      Continues real start pending post k fs' fs' (f (.error e)))
    (hok : ∀ fs' fs'', k.Fits real start pending fs' → fs'.setMode p mode = .ok fs'' →
      Continues real start pending post k fs' fs'' (f (.ok ()))) :
    (Files.setMode p mode >>= f).Obeys (filing real start pending) post k fs :=
  fun fs' _ hfit => filing_settle (fun e => herror fs' e hfit) fun fs'' => hok fs' fs'' hfit

theorem filing_remove {f : Except Refusal Unit → Program Files α}
    (herror : ∀ fs' e, k.Fits real start pending fs' →
      Continues real start pending post k fs' fs' (f (.error e)))
    (hok : ∀ fs' fs'', k.Fits real start pending fs' → fs'.remove p = .ok fs'' →
      Continues real start pending post k fs' fs'' (f (.ok ()))) :
    (Files.remove p >>= f).Obeys (filing real start pending) post k fs :=
  fun fs' _ hfit => filing_settle (fun e => herror fs' e hfit) fun fs'' => hok fs' fs'' hfit

theorem filing_rename {f : Except Refusal Unit → Program Files α} {p' : Path}
    (herror : ∀ fs' e, k.Fits real start pending fs' →
      Continues real start pending post k fs' fs' (f (.error e)))
    (hok : ∀ fs' fs'', (filing real start pending).rely k fs fs' → k.Fits real start pending fs' →
      fs'.rename p p' = .ok fs'' → Continues real start pending post k fs' fs'' (f (.ok ()))) :
    (Files.rename p p' >>= f).Obeys (filing real start pending) post k fs :=
  fun fs' hrely hfit => filing_settle (fun e => herror fs' e hfit) fun fs'' => hok fs' fs'' hrely hfit

theorem filing_createTemporary {f : Except Fault (Path × RealPath) → Program Files α} {n : Name}
    (herror : ∀ fs' e, k.Fits real start pending fs' →
      Continues real start pending post k fs' fs' (f (.error e)))
    (hok : ∀ fs' fs'' made, k.Fits real start pending fs' → fs'.createTemporary p n = .ok (made, fs'') →
      Continues real start pending post k fs' fs'' (f (.ok made))) :
    (Files.createTemporary p n >>= f).Obeys (filing real start pending) post k fs := by
  intro fs' _ hfit
  have hanswer : ∃ reply fs'', answer (.createTemporary p n) fs' = (reply, fs'') ∧
      Continues real start pending post k fs' fs'' (f reply) := by
    cases hcreate : fs'.createTemporary p n with
    | error e =>
      refine ⟨.error e, fs', ?_, herror fs' e hfit⟩
      simp only [answer, hcreate]
    | ok made =>
      refine ⟨.ok made.1, made.2, ?_, hok fs' made.2 made.1 hfit hcreate⟩
      simp only [answer, hcreate]
  obtain ⟨reply, fs'', heq, k', hfit', hmove, hnext⟩ := hanswer
  have hafter : (answer (.createTemporary p n) fs').2 = fs'' := congrArg Prod.snd heq
  have hreply : (answer (.createTemporary p n) fs').1 = reply := congrArg Prod.fst heq
  rw [← hafter] at hfit' hmove hnext
  rw [← hreply] at hnext
  exact ⟨k', hmove, hfit', hnext⟩

/-- The content goes to the file that the claim owns. -/
theorem filing_writeOpen {f : Unit → Program Files α} {t : RealPath} {content : Bytes}
    (ht : k.temporary = some t)
    (h : ∀ fs', (f ()).Obeys (filing real start pending) post k fs') :
    (Files.writeOpen t content >>= f).Obeys (filing real start pending) post k fs := by
  intro fs' _ hfit
  obtain ⟨mode, content', hget⟩ := hfit.taken t ht
  obtain ⟨hfit', hmove⟩ := hfit.rewrite ht mode content
  rw [← writeOpen_eq hget] at hfit' hmove
  exact ⟨k, hmove, hfit', h _⟩

theorem continues_refl {next : Program Files α} (hfit : k.Fits real start pending fs)
    (h : next.Obeys (filing real start pending) post k fs) :
    Continues real start pending post k fs fs next := ⟨k, hfit, FileClaim.move_refl k fs, h⟩

/-! ## What is in the way -/

/-- The path is the spelling of an entry with the name of the slot. -/
def Slot.IsSpelled (slot : Slot) (destination : Path) : Prop :=
  ∃ r, RealPath.IsProper (r ++ [slot.name]) ∧ destination = RealPath.toPath (r ++ [slot.name])

/-- The directory that the destination lies in is inside the real root. -/
def LiesInside (real : RealPath) (start : FileSystem) (slot : Slot) (destination : Path) : Prop :=
  ∀ d, start.Names destination d slot.name → real <+: d

/-- What stands in the way of a file entry is known to be nothing, or a regular file. -/
def Clear (start : FileSystem) (slot : Slot) (destination : Path) : Prop :=
  ∀ d, start.Names destination d slot.name → start.frame (d ++ [slot.name]) = none

/-- A destination whose directory is confirmed lies inside the real root. -/
theorem confirmParent_filing (hreal : real.IsProper) (hspelled : slot.IsSpelled destination) :
    (confirmParent real.toPath destination entry).Obeys (filing real start pending)
      (fun result k' _ => k' = k ∧ (result = .ok () → LiesInside real start slot destination)) k fs := by
  obtain ⟨r, hproper, rfl⟩ := hspelled
  refine (confirmParent_obeys FileClaim.letsAsk_filing hreal hproper).imp ?_
  rintro result k' fs' ⟨hsame, -, hfit, hok⟩
  refine ⟨hsame, ?_⟩
  intro hconfirmed d hd
  -- directories stay where they are, so what is the case now was the case when the pass started
  obtain ⟨q, hq, hin⟩ := hok hconfirmed
  obtain ⟨parent, hparent, hleads⟩ := hd.parent?
  obtain rfl := Option.some.inj ((RealPath.parent?_toPath hproper).symm.trans hparent)
  obtain rfl : q = d := Except.ok.inj (hq.symm.trans (hfit.frame.keeps.leadsTo hleads).1)
  exact hin

/-- What was achieved with claim `k` is still the case with `k'`, and no temporary file is left. -/
structure FileClaim.Rests (k k' : FileClaim) : Prop where
  temporary : k'.temporary = none
  settled : ∀ q, k.settled q → k'.settled q

theorem FileClaim.Rests.trans {l m : FileClaim} (h : k.Rests l) (h' : l.Rests m) : k.Rests m :=
  ⟨h'.temporary, fun q hq => h'.settled q (h.settled q hq)⟩

/-- The entry of the slot is in place. -/
def Slot.Done (start : FileSystem) (slot : Slot) (k : FileClaim) : Prop :=
  ∃ q, slot.Aims start q ∧ k.settled q

section Way

variable {d q : RealPath} {mode : UInt32} {content : Bytes} (hframe : SameFrame start fs)
include hframe

theorem clear_of_notFound (h : fs.find false destination = .error .notFound) :
    Clear start slot destination := by
  intro d hd
  have hnone := (hframe.keeps.names hd).find_eq_notFound h
  rw [← hframe.frame, frame_eq_none]
  exact .inl hnone

/-- A regular file at the destination stands where the slot aims. -/
theorem clear_of_find_file (hproper : RealPath.IsProper (r ++ [slot.name]))
    (hdestination : slot.destination = some (RealPath.toPath (r ++ [slot.name])))
    (hfind : fs.find false (RealPath.toPath (r ++ [slot.name])) = .ok (q, .file mode content)) :
    Clear start slot (RealPath.toPath (r ++ [slot.name])) ∧
      ∃ d, start.Names (RealPath.toPath (r ++ [slot.name])) d slot.name ∧
        slot.Aims start (d ++ [slot.name]) := by
  obtain ⟨d, hd⟩ := names_of_find_eq_ok hproper hfind
  obtain ⟨rfl, hget⟩ := hd.find_eq_ok hfind
  have hnames : start.Names (RealPath.toPath (r ++ [slot.name])) d slot.name :=
    hframe.symm.keeps.names hd
  have hfree : start.frame (d ++ [slot.name]) = none := by
    rw [← hframe.frame, frame_eq_none]
    exact .inr ⟨mode, content, hget⟩
  refine ⟨?_, d, hnames, ?_⟩
  · intro d' hd'
    obtain ⟨rfl, -⟩ := hnames.unique hd'
    exact hfree
  · exact ⟨_, d, hdestination, hnames, hd.isAcceptable_of_find hfind, rfl⟩

/-- What is read at a destination that only a regular file can stand in the way of is what its place
    holds. -/
theorem get?_of_read (hnames : start.Names destination d slot.name) (hclear : Clear start slot destination)
    (hread : fs.read destination = .ok content) : ∃ mode, fs.get? (d ++ [slot.name]) = some (.file mode content) := by
  have hfree : fs.frame (d ++ [slot.name]) = none := (hframe.frame _).trans (hclear d hnames)
  obtain ⟨q, x, hfind, -, rfl⟩ := read_eq_ok hread
  obtain ⟨rfl, mode, content, rfl, hget⟩ := (hframe.keeps.names hnames).find_regular hfree hfind
  exact ⟨mode, hget⟩

end Way

/-- The digest that is found is that of a regular file at the destination; if it is the expected one, the
    place is settled. -/
theorem existingDigest_filing (hslot : slot ∈ pending) (hdestination : slot.destination = some destination)
    (hspelled : slot.IsSpelled destination) (hidle : k.temporary = none) :
    (existingDigest destination).Obeys (filing real start pending)
      (fun result k' _ => k.Rests k' ∧ ∀ found, result = .ok found →
        Clear start slot destination ∧ (found = some slot.entry.digest → slot.Done start k')) k fs := by
  have hrests : k.Rests k := ⟨hidle, fun _ h => h⟩
  obtain ⟨r, hproper, rfl⟩ := hspelled
  rw [existingDigest]
  refine ask_inspectLink FileClaim.letsAsk_filing ?_
  intro fs₁ _ hfit₁
  cases hinspect : fs₁.inspect false (RealPath.toPath (r ++ [slot.name])) with
  | error e =>
    cases e with
    | notFound =>
      refine ⟨hrests, ?_⟩
      rintro _ ⟨⟩
      exact ⟨clear_of_notFound hfit₁.frame (find_of_inspect_error hinspect), nofun⟩
    | _ => exact ⟨hrests, nofun⟩
  | ok info =>
    obtain ⟨q, x, hfind, hkind⟩ := inspect_eq_ok hinspect
    simp only [hkind]
    cases x with
    | file mode content =>
      obtain ⟨hclear, d, hnames, haims⟩ := clear_of_find_file hfit₁.frame hproper hdestination hfind
      -- another worker may have replaced the file since, so the content is that of the second look
      refine filing_read ?_
      intro fs₂ _ hfit₂
      cases hread : fs₂.read (RealPath.toPath (r ++ [slot.name])) with
      | error e => exact continues_refl hfit₂ ⟨hrests, nofun⟩
      | ok content' =>
        by_cases hdigest : Digest.of content' = slot.entry.digest
        · obtain ⟨mode', hget⟩ := get?_of_read hfit₂.frame hnames hclear hread
          obtain ⟨hfit, hmove⟩ := hfit₂.settle ⟨slot, hslot, haims, mode', content', hget, hdigest⟩
          refine ⟨k.settle (d ++ [slot.name]), hfit, hmove, ⟨rfl, fun _ h => .inl h⟩, ?_⟩
          rintro _ ⟨⟩
          exact ⟨hclear, fun _ => ⟨_, haims, .inr rfl⟩⟩
        · refine continues_refl hfit₂ ⟨hrests, ?_⟩
          rintro _ ⟨⟩
          exact ⟨hclear, fun h => absurd (Option.some.inj h) hdigest⟩
    | _ => exact ⟨hrests, nofun⟩

/-! ## Staged content -/

/-- The path names the temporary file that the claim owns. -/
def Owned (start : FileSystem) (k : FileClaim) (p : Path) : Prop :=
  ∃ d n, start.Names p d n ∧ k.temporary = some (d ++ [n])

/-- The path of an owned file leads to it. -/
theorem Owned.find (h : Owned start k p) (hfit : k.Fits real start pending fs) {q : RealPath} {x : Node}
    (hfind : fs.find true p = .ok (q, x)) :
    k.temporary = some q ∧ ∃ mode content, x = .file mode content ∧
      fs.get? q = some (.file mode content) := by
  obtain ⟨d, n, hnames, ht⟩ := h
  have hframe : fs.frame (d ++ [n]) = none := frame_eq_none.2 (.inr (hfit.taken _ ht))
  obtain ⟨rfl, hfile⟩ := (hfit.frame.keeps.names hnames).find_regular hframe hfind
  exact ⟨ht, hfile⟩

theorem Owned.spot (h : Owned start k p) (hfit : k.Fits real start pending fs) {s : Spot}
    (hs : fs.spot p = .ok s) : k.temporary = some s.place := by
  obtain ⟨d, n, hnames, ht⟩ := h
  rw [(hfit.frame.keeps.names hnames).spot_eq_ok hs]
  exact ht

theorem discard_filing {staged : StagedFile} (howned : Owned start k staged.path) :
    staged.discard.Obeys (filing real start pending) (fun _ k' _ => k.Rests k') k fs := by
  have hrests : k.Rests k.release := ⟨rfl, fun _ h => h⟩
  refine filing_remove ?_ ?_
  · intro fs' _ hfit
    exact ⟨k.release, hfit.release, FileClaim.move_release k fs', hrests⟩
  · intro fs' fs'' hfit hremove
    obtain ⟨s, hs, -, rfl⟩ := remove_eq_ok hremove
    obtain ⟨hfit', hmove⟩ := hfit.erase (howned.spot hfit hs)
    exact ⟨k.release, hfit', hmove, hrests⟩

theorem applyMode?_filing {mode : Option UInt32} (howned : Owned start k p) :
    (applyMode? p mode).Obeys (filing real start pending) (fun _ k' _ => k' = k) k fs := by
  cases mode with
  | none => exact rfl
  | some mode =>
    refine filing_setMode (fun fs' _ hfit => continues_refl hfit rfl) ?_
    intro fs' fs'' hfit hset
    obtain ⟨q, x, hfind, rfl⟩ := setMode_eq_ok hset
    obtain ⟨ht, mode', content, rfl, -⟩ := howned.find hfit hfind
    obtain ⟨hfit', hmove⟩ := hfit.rewrite ht (mode &&& modeMask) content
    exact ⟨k, hfit', hmove, rfl⟩

theorem directoryOf_toPath {n : Name} (h : RealPath.IsProper (r ++ [n])) :
    StagedFile.directoryOf (RealPath.toPath (r ++ [n])) = r.toPath := by
  rw [StagedFile.directoryOf, RealPath.parent?_toPath h]
  rfl

/-- A temporary file that was made is owned; it lies in the directory of its destination. -/
theorem own_createTemporary {path : Path} {place : RealPath} {fs' : FileSystem}
    (hfit : k.Fits real start pending fs) (hslot : slot ∈ pending)
    (hproper : RealPath.IsProper (r ++ [slot.name]))
    (hin : LiesInside real start slot (RealPath.toPath (r ++ [slot.name])))
    (hcreate : fs.createTemporary r.toPath slot.name = .ok ((path, place), fs')) :
    Owned start (k.own place) path ∧ (∃ d, start.Names (RealPath.toPath (r ++ [slot.name])) d slot.name) ∧
      (k.own place).Fits real start pending fs' ∧
      FileClaim.Move real start pending k (k.own place) fs fs' := by
  obtain ⟨hr, hn⟩ := RealPath.isProper_append.1 hproper
  have hslash := (RealPath.isProper_singleton.1 hn).slash_not_mem
  obtain ⟨d, n, hd, -, rfl, rfl, hnone, rfl⟩ := createTemporary_eq_ok hcreate
  have htemporary := isProperName_temporaryName (n := n) hslash
  rw [FileSystem.absolute, RealPath.isAbsolute_toPath, if_pos rfl] at hd ⊢
  rw [RealPath.push_toPath hr htemporary]
  have hleads : start.LeadsTo r.toPath d := hfit.frame.symm.keeps.leadsTo hd
  have hnames : start.Names (RealPath.toPath (r ++ [slot.name])) d slot.name :=
    ⟨r, hproper, rfl, hleads⟩
  have hbeside : start.Names (RealPath.toPath (r ++ [temporaryName slot.name n])) d
      (temporaryName slot.name n) :=
    ⟨r, RealPath.isProper_append.2 ⟨hr, RealPath.isProper_singleton.2 htemporary⟩, rfl, hleads⟩
  obtain ⟨hfit', hmove⟩ := hfit.own hnone ⟨slot, hslot, d, n, rfl⟩ (.append (hin d hnames) _)
    newFileMode []
  exact ⟨⟨d, _, hbeside, rfl⟩, ⟨d, hnames⟩, hfit', hmove⟩

/-- A file that is staged is owned, and its destination names an entry of some directory. -/
theorem create_filing {content : Bytes} {options : WriteOptions} (hslot : slot ∈ pending)
    (hspelled : slot.IsSpelled destination) (hin : LiesInside real start slot destination)
    (hidle : k.temporary = none) :
    (StagedFile.create destination content options).Obeys (filing real start pending)
      (fun result k' _ => (∀ q, k.settled q → k'.settled q) ∧
        (∀ e, result = .error e → k'.temporary = none) ∧
        ∀ staged, result = .ok staged → Owned start k' staged.path ∧
          staged.destination = destination ∧ ∃ d, start.Names destination d slot.name) k fs := by
  obtain ⟨r, hproper, rfl⟩ := hspelled
  -- names of entries are text, so the lossy reading of a file name gives it back
  have hname : utf8 (lossy slot.name) = slot.name := by rw [Slot.name, Entry.name, lossy_utf8]
  rw [StagedFile.create, RealPath.fileName?_toPath hproper, directoryOf_toPath hproper]
  simp only [hname]
  refine filing_createTemporary (fun fs' e hfit => continues_refl hfit ?_) ?_
  · exact ⟨fun _ h => h, fun _ _ => hidle, nofun⟩
  · rintro fs' fs'' ⟨path, place⟩ hfit hcreate
    obtain ⟨howned, hnames, hfit', hmove⟩ := own_createTemporary hfit hslot hproper hin hcreate
    refine ⟨_, hfit', hmove, filing_writeOpen rfl fun fs₁ => ?_⟩
    refine (applyMode?_filing howned).bind ?_
    rintro (e | ⟨⟩) k₁ fs₂ rfl
    · refine (discard_filing howned).bind ?_
      rintro ⟨⟩ k₂ _ hrests
      exact ⟨hrests.settled, fun _ _ => hrests.temporary, nofun⟩
    · show (if options.sync then _ else _ : Program Files (Except FsError StagedFile)).Obeys _ _ _ _
      split
      · refine Program.Obeys.ask FileClaim.letsAsk_filing (fun _ => rfl) ?_
        intro fs₃ _ _
        refine ⟨fun _ h => h, nofun, ?_⟩
        rintro _ ⟨⟩
        exact ⟨howned, rfl, hnames⟩
      · refine ⟨fun _ h => h, nofun, ?_⟩
        rintro _ ⟨⟩
        exact ⟨howned, rfl, hnames⟩

/-- What is read back from the temporary file is what it holds. -/
theorem reopen_filing {staged : StagedFile} (howned : Owned start k staged.path) :
    staged.reopen.Obeys (filing real start pending)
      (fun result k' fs' => k' = k ∧ ∀ written, result = .ok written → ∃ t mode,
        k.temporary = some t ∧ fs'.get? t = some (.file mode written)) k fs := by
  refine filing_read ?_
  intro fs' _ hfit
  cases hread : fs'.read staged.path with
  | error e => exact continues_refl hfit ⟨rfl, nofun⟩
  | ok content =>
    refine continues_refl hfit ⟨rfl, ?_⟩
    rintro _ ⟨⟩
    obtain ⟨q, x, hfind, -, rfl⟩ := read_eq_ok hread
    obtain ⟨ht, mode, content, rfl, hget⟩ := howned.find hfit hfind
    exact ⟨q, mode, ht, hget⟩

/-- A temporary file that holds what its entry wants is moved to where the entry is meant for. -/
theorem commit_filing {staged : StagedFile} {written : Bytes} (howned : Owned start k staged.path)
    (hslot : slot ∈ pending) (hdestination : slot.destination = some staged.destination) {d : RealPath}
    (hnames : start.Names staged.destination d slot.name) (hin : real <+: d)
    (hclear : Clear start slot staged.destination)
    (hwritten : ∃ t mode, k.temporary = some t ∧ fs.get? t = some (.file mode written))
    (hdigest : Digest.of written = slot.entry.digest) :
    staged.commit.Obeys (filing real start pending)
      (fun result k' _ => k.Rests k' ∧ (result = .ok () → slot.Done start k')) k fs := by
  obtain ⟨t, mode, ht, hget⟩ := hwritten
  refine filing_rename ?_ ?_
  · intro fs' e hfit
    refine continues_refl hfit ?_
    refine (discard_filing howned).bind ?_
    rintro ⟨⟩ k' _ hrests
    exact ⟨hrests, nofun⟩
  · intro fs' fs'' hrely hfit hrename
    have hget' : fs'.get? t = some (.file mode written) := (hrely t ht).trans hget
    have hplace : ∀ s, fs'.spot staged.path = .ok s → s.place = t := by
      intro s hs
      exact Option.some.inj ((howned.spot hfit hs).symm.trans ht)
    obtain ⟨s, s', hs, hs', heffect⟩ := rename_file_eq_ok (fun s hs => hplace s hs ▸ hget') hrename
    have htarget : s'.place = d ++ [slot.name] := (hfit.frame.keeps.names hnames).spot_eq_ok hs'
    rw [hplace s hs, htarget] at heffect
    have haims : slot.Aims start (d ++ [slot.name]) :=
      ⟨_, d, hdestination, hnames, (hfit.frame.keeps.names hnames).isAcceptable_of_spot hs', rfl⟩
    have hrests : k.Rests (k.settle (d ++ [slot.name])) := ⟨rfl, fun _ h => .inl h⟩
    -- the temporary file may have the very name of its entry, and then nothing moves
    rcases heffect with ⟨hsame, rfl⟩ | rfl
    · rw [hsame] at hget'
      obtain ⟨hfit', hmove⟩ := hfit.settle ⟨slot, hslot, haims, mode, written, hget', hdigest⟩
      exact ⟨_, hfit', hmove, hrests, fun _ => ⟨_, haims, .inr rfl⟩⟩
    · have hframe : fs'.frame (d ++ [slot.name]) = none := (hfit.frame.frame _).trans (hclear d hnames)
      obtain ⟨hfit', hmove⟩ := hfit.commit ht hget' hslot haims hdigest (.append hin _) hframe
      exact ⟨_, hfit', hmove, hrests, fun _ => ⟨_, haims, .inr rfl⟩⟩

/-! ## Policies -/

theorem OverwritePolicy.leave?_eq_none_iff {policy : OverwritePolicy} {unchanged : Bool} :
    policy.leave? unchanged = none ↔
      policy = .forceOverwrite ∨ policy = .overwriteIfChanged ∧ unchanged = false := by
  cases policy <;> cases unchanged <;> simp [leave?]

theorem OverwritePolicy.leave?_eq_some_iff {policy : OverwritePolicy} {unchanged : Bool} {o : Outcome} :
    policy.leave? unchanged = some o ↔
      o = .skippedUnchanged ∧ unchanged = true ∧ policy ≠ .forceOverwrite ∨
        o = .diverged ∧ unchanged = false ∧ policy = .skipExisting := by
  cases policy <;> cases unchanged <;> simp [leave?, eq_comm]

/-- A file that a policy leaves is in place only if it has the expected digest. -/
theorem OverwritePolicy.inPlace_of_leave? {policy : OverwritePolicy} {unchanged : Bool} {o : Outcome}
    (h : policy.leave? unchanged = some o) (ho : o.InPlace) : unchanged = true := by
  rcases OverwritePolicy.leave?_eq_some_iff.1 h with ⟨-, hsame, -⟩ | ⟨rfl, -, -⟩
  · exact hsame
  · rcases ho with ho | ho | ho <;> cases ho

/-! ## One file -/

section WriteFile

variable (hslot : slot ∈ pending) (hdestination : slot.destination = some destination)
  (hspelled : slot.IsSpelled destination)
include hslot hdestination hspelled

theorem writeVerified_filing {content : Bytes} {options : WriteOptions}
    (hin : LiesInside real start slot destination) (hclear : Clear start slot destination)
    (hidle : k.temporary = none) :
    (writeVerified destination content slot.entry.digest options).Obeys (filing real start pending)
      (fun result k' _ => k.Rests k' ∧ (result = .ok () → slot.Done start k')) k fs := by
  rw [writeVerified]
  refine (create_filing hslot hspelled hin hidle).bind ?_
  rintro (e | staged) k₁ fs₁ ⟨hkept, hfailed, hok⟩
  · exact ⟨⟨hfailed e rfl, hkept⟩, nofun⟩
  · obtain ⟨howned, rfl, d, hnames⟩ := hok staged rfl
    have hrests : ∀ k', k₁.Rests k' → k.Rests k' :=
      fun k' h => ⟨h.temporary, fun q hq => h.settled q (hkept q hq)⟩
    refine (reopen_filing howned).bind ?_
    rintro (e | written) _ fs₂ ⟨rfl, hwritten⟩
    · refine (discard_filing howned).bind ?_
      rintro ⟨⟩ k₂ _ hdiscarded
      exact ⟨hrests k₂ hdiscarded, nofun⟩
    · show (if Digest.of written ≠ slot.entry.digest then _ else _ :
        Program Files (Except ExtractError Unit)).Obeys _ _ _ _
      split
      · refine (discard_filing howned).bind ?_
        rintro ⟨⟩ k₂ _ hdiscarded
        exact ⟨hrests k₂ hdiscarded, nofun⟩
      · next hdigest =>
        refine (commit_filing howned hslot hdestination hnames (hin d hnames) hclear
          (hwritten written rfl) (not_not.1 hdigest)).bind ?_
        rintro (e | ⟨⟩) k₂ _ ⟨hcommitted, hdone⟩
        · exact ⟨hrests k₂ hcommitted, nofun⟩
        · exact ⟨hrests k₂ hcommitted, fun _ => hdone rfl⟩

/-- **A file entry that is in place is settled**, and no temporary file of it is left. -/
theorem writeFile_filing {options : ExtractOptions} {content : Bytes} (hreal : real.IsProper)
    (hidle : k.temporary = none) :
    (writeFile options real.toPath destination slot.entry content).Obeys (filing real start pending)
      (fun result k' _ => k.Rests k' ∧ ∀ o, result = .ok o → o.InPlace → slot.Done start k') k fs := by
  have hwrite : ∀ {k₁ : FileClaim} {fs₁ : FileSystem} (o : Outcome), k.Rests k₁ →
      LiesInside real start slot destination → Clear start slot destination →
      (do return (← writeVerified destination content slot.entry.digest
          ⟨slot.entry.mode, options.sync⟩).map fun _ => o :
        Program Files (Except ExtractError Outcome)).Obeys (filing real start pending)
        (fun result k' _ => k.Rests k' ∧ ∀ o, result = .ok o → o.InPlace → slot.Done start k')
        k₁ fs₁ := by
    intro k₁ fs₁ o hrests hin hclear
    refine (writeVerified_filing hslot hdestination hspelled hin hclear hrests.temporary).bind ?_
    rintro (e | ⟨⟩) k₂ _ ⟨hrests', hdone⟩
    · exact ⟨hrests.trans hrests', nofun⟩
    · exact ⟨hrests.trans hrests', fun _ _ _ => hdone rfl⟩
  rw [writeFile]
  refine (confirmParent_filing hreal hspelled).bind ?_
  rintro (e | ⟨⟩) _ fs₁ ⟨rfl, hin⟩
  · exact ⟨⟨hidle, fun _ h => h⟩, nofun⟩
  · refine (existingDigest_filing hslot hdestination hspelled hidle).bind ?_
    rintro (e | found) k₁ fs₂ ⟨hrests, hfound⟩
    · exact ⟨hrests, nofun⟩
    · obtain ⟨hclear, hdone⟩ := hfound found rfl
      cases found with
      | none => exact hwrite _ hrests (hin rfl) hclear
      | some existing =>
        cases hleave : options.overwrite.leave? (existing == slot.entry.digest) with
        | none =>
          simp only [hleave]
          exact hwrite _ hrests (hin rfl) hclear
        | some outcome =>
          simp only [hleave]
          refine ⟨hrests, ?_⟩
          rintro _ ⟨⟩ hplace
          exact hdone (congrArg some (eq_of_beq (OverwritePolicy.inPlace_of_leave? hleave hplace)))

end WriteFile

end TreeImage
