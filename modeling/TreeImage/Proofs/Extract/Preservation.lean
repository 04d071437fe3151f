import TreeImage.Proofs.Extract.FileResults
import TreeImage.Proofs.Extract.Growth
import TreeImage.Proofs.Extract.Run
import TreeImage.Proofs.Program.Learning

set_option autoImplicit false

/-! # The default policy destroys nothing

Under `skipExisting` whatever stood in the file system stands afterwards as it was (`FileSystem.Preserves`),
however the run ends. Up to the file pass a run only adds directories. In the file pass the calls of all workers
work at places where nothing stood: the files that they stage are new, and a destination was looked at and
found free before something is moved there (`Vacant`). Modes are set at directories that the run made. -/

namespace TreeImage

open FileSystem

variable {α : Type} {real r q t d : RealPath} {n : Name} {start fs fs' fs'' : FileSystem} {p destination : Path}
  {post : α → Unit → FileSystem → Prop} {x : Node} {content : Bytes}

/-! ## What is preserved -/

/-- Whatever stands somewhere in the one stands there in the other, as it is. -/
def FileSystem.Preserves (fs fs' : FileSystem) : Prop := ∀ q x, fs.get? q = some x → fs'.get? q = some x

namespace FileSystem.Preserves

theorem refl (fs : FileSystem) : Preserves fs fs := fun _ _ h => h

theorem get?_eq_none (h : Preserves fs fs') (hq : fs'.get? q = none) : fs.get? q = none := by
  cases hget : fs.get? q with
  | none => rfl
  | some x => cases hq.symm.trans (h q x hget)

/-- What changes at a place where nothing stood changes nothing that stood somewhere. -/
theorem of_agreeOutside (h : Preserves start fs) (hq : start.get? q = none)
    (hagree : AgreeOutside (· = q) fs fs') : Preserves start fs' := by
  intro q' x hget
  rw [hagree.get? q', h q' x hget]
  rintro rfl
  cases hq.symm.trans hget

theorem put (h : Preserves start fs) (hq : start.get? q = none) (x : Node) : Preserves start (fs.put q x) :=
  h.of_agreeOutside hq (agreeOutside_put fs q x)

theorem erase (h : Preserves start fs) (hq : start.get? q = none) : Preserves start (fs.erase q) :=
  h.of_agreeOutside hq ⟨rfl, rfl, fun _ hne => get?_erase_of_ne hne⟩

end FileSystem.Preserves

theorem FileSystem.Grows.preserves (h : Grows fs fs') : Preserves fs fs' := fun _ _ => h.get?_eq_some

/-! ## Places where nothing stood -/

/-- The discipline of workers that only touch regular files, and none that stood at the start. -/
abbrev sparing (start : FileSystem) : Discipline (I := Files) FileSystem.answer Unit :=
  .keeping _ start.Preserves SameFrame .refl .trans

theorem maintains_sameFrame : (sparing start).Maintains (SameFrame fs) :=
  fun _ _ _ _ hmay _ _ hframe => hframe.trans hmay

/-- The path names an entry where nothing stood at the start, and where nothing but a regular file can be. -/
def Scratch (start fs : FileSystem) (p : Path) (t : RealPath) : Prop :=
  ∃ d n, t = d ++ [n] ∧ fs.Names p d n ∧ start.get? t = none ∧ fs.frame t = none

theorem Scratch.sameFrame (h : Scratch start fs p t) (hframe : SameFrame fs fs') : Scratch start fs' p t := by
  obtain ⟨d, n, rfl, hnames, hnew, hfree⟩ := h
  exact ⟨d, n, rfl, hframe.keeps.names hnames, hnew, (hframe.frame _).trans hfree⟩

/-- Where the path names an entry, nothing stood at the start, and nothing but a regular file can be. -/
def Vacant (start fs : FileSystem) (p : Path) (n : Name) : Prop :=
  ∀ d, fs.Names p d n → start.get? (d ++ [n]) = none ∧ fs.frame (d ++ [n]) = none

theorem Vacant.sameFrame (h : Vacant start fs p n) (hframe : SameFrame fs fs') : Vacant start fs' p n := by
  intro d hd
  obtain ⟨hnew, hfree⟩ := h d (hframe.symm.keeps.names hd)
  exact ⟨hnew, (hframe.frame _).trans hfree⟩

/-- A destination at which nothing is found is vacant. -/
theorem vacant_of_notFound (h : start.Preserves fs) (hfind : fs.find false p = .error .notFound) :
    Vacant start fs p n := by
  intro d hd
  have hnone := hd.find_eq_notFound hfind
  exact ⟨h.get?_eq_none hnone, frame_eq_none.2 (.inl hnone)⟩

/-- A change at a place where nothing stood, and where nothing but a regular file is before and afterwards. -/
theorem spares_put_file (h : start.Preserves fs) (hnew : start.get? t = none) (hfree : fs.frame t = none)
    (mode : UInt32) (content : Bytes) :
    SameFrame fs (fs.put t (.file mode content)) ∧ start.Preserves (fs.put t (.file mode content)) :=
  ⟨sameFrame_put_file hfree mode content, h.put hnew _⟩

theorem spares_erase (h : start.Preserves fs) (hnew : start.get? t = none) (hfree : fs.frame t = none) :
    SameFrame fs (fs.erase t) ∧ start.Preserves (fs.erase t) :=
  ⟨sameFrame_erase hfree, h.erase hnew⟩

theorem spares_writeOpen (h : start.Preserves fs) (hnew : start.get? t = none) (hfree : fs.frame t = none)
    (content : Bytes) : SameFrame fs (fs.writeOpen t content) ∧ start.Preserves (fs.writeOpen t content) := by
  unfold writeOpen
  split
  · exact spares_put_file h hnew hfree _ content
  · exact ⟨.refl fs, h⟩

/-- Nothing can be moved away from where nothing stands. -/
theorem exists_of_rename_eq_ok {s : Spot} (hs : fs.spot p = .ok s) (h : fs.rename p destination = .ok fs') :
    ∃ x, fs.get? s.place = some x := by
  cases hget : fs.get? s.place with
  | some x => exact ⟨x, rfl⟩
  | none =>
    unfold rename at h
    simp only [hs, hget] at h
    split at h
    · cases h
    · split at h <;> cases h

/-- A staged file is moved to a vacant destination, or to itself. -/
theorem spares_rename (h : start.Preserves fs) (hscratch : Scratch start fs p t)
    (hnames : fs.Names destination d n) (hvacant : Vacant start fs destination n)
    (hrename : fs.rename p destination = .ok fs') : SameFrame fs fs' ∧ start.Preserves fs' := by
  obtain ⟨d', n', rfl, hsource, hnew, hfree⟩ := hscratch
  obtain ⟨hnewTarget, hfreeTarget⟩ := hvacant d hnames
  cases hspot : fs.spot p with
  | error e =>
    unfold rename at hrename
    simp only [hspot] at hrename
    cases hrename
  | ok s =>
    have hplace := hsource.spot_eq_ok hspot
    obtain ⟨x, hx⟩ := exists_of_rename_eq_ok hspot hrename
    rw [hplace] at hx
    rcases frame_eq_none.1 hfree with hnone | ⟨mode, content, hfile⟩
    · cases hnone.symm.trans hx
    have hstaged : ∀ s, fs.spot p = .ok s → fs.get? s.place = some (.file mode content) := by
      intro s hs
      rw [hsource.spot_eq_ok hs, hfile]
    obtain ⟨s₁, s₂, hs₁, hs₂, heffect⟩ := rename_file_eq_ok hstaged hrename
    rw [hsource.spot_eq_ok hs₁, hnames.spot_eq_ok hs₂] at heffect
    rcases heffect with ⟨-, rfl⟩ | rfl
    · exact ⟨.refl fs', h⟩
    · obtain ⟨hframe, hpreserves⟩ := spares_erase h hnew hfree
      have hfree' : (fs.erase (d' ++ [n'])).frame (d ++ [n]) = none := (hframe.frame _).trans hfreeTarget
      obtain ⟨hframe', hpreserves'⟩ := spares_put_file hpreserves hnewTarget hfree' mode content
      exact ⟨hframe.trans hframe', hpreserves'⟩

/-! ## One file -/

/-- The rule for a call that keeps the frame and preserves what stood at the start. -/
theorem sparing_call {c : FileCall} {next : FileCall.Reply c → Program Files α}
    (h : ∀ fs', SameFrame fs fs' → start.Preserves fs' →
      (SameFrame fs' (fs'.answer c).2 ∧ start.Preserves (fs'.answer c).2) ∧
        (next (fs'.answer c).1).Obeys (sparing start) post () (fs'.answer c).2) :
    (Program.call (I := Files) c next).Obeys (sparing start) post () fs := by
  intro fs' hframe hpreserves
  obtain ⟨⟨hframe', hpreserves'⟩, hnext⟩ := h fs' hframe hpreserves
  exact ⟨(), hframe', hpreserves', hnext⟩

/-- The same for a change that may be refused. -/
theorem sparing_settle {change : Except Refusal FileSystem} {f : Except Refusal Unit → Program Files α}
    (hpreserves : start.Preserves fs) (herror : ∀ e, (f (.error e)).Obeys (sparing start) post () fs)
    (hok : ∀ fs', change = .ok fs' → (SameFrame fs fs' ∧ start.Preserves fs') ∧
      (f (.ok ())).Obeys (sparing start) post () fs') :
    (SameFrame fs (fs.settle change).2 ∧ start.Preserves (fs.settle change).2) ∧
      (f (fs.settle change).1).Obeys (sparing start) post () (fs.settle change).2 :=
  settle_cases (P := fun reply fs' => (SameFrame fs fs' ∧ start.Preserves fs') ∧
    (f reply).Obeys (sparing start) post () fs') (fun e _ => ⟨⟨.refl fs, hpreserves⟩, herror e⟩) hok

theorem sparing_remove {f : Except Refusal Unit → Program Files α}
    (herror : ∀ fs' e, SameFrame fs fs' → (f (.error e)).Obeys (sparing start) post () fs')
    (hok : ∀ fs' fs'', SameFrame fs fs' → start.Preserves fs' → fs'.remove p = .ok fs'' →
      (SameFrame fs' fs'' ∧ start.Preserves fs'') ∧ (f (.ok ())).Obeys (sparing start) post () fs'') :
    (Files.remove p >>= f).Obeys (sparing start) post () fs :=
  sparing_call (c := .remove p) fun fs' hframe hpreserves =>
    sparing_settle hpreserves (fun e => herror fs' e hframe) fun fs'' => hok fs' fs'' hframe hpreserves

theorem sparing_setMode {f : Except Refusal Unit → Program Files α} {mode : UInt32}
    (herror : ∀ fs' e, SameFrame fs fs' → (f (.error e)).Obeys (sparing start) post () fs')
    (hok : ∀ fs' fs'', SameFrame fs fs' → start.Preserves fs' → fs'.setMode p mode = .ok fs'' →
      (SameFrame fs' fs'' ∧ start.Preserves fs'') ∧ (f (.ok ())).Obeys (sparing start) post () fs'') :
    (Files.setMode p mode >>= f).Obeys (sparing start) post () fs :=
  sparing_call (c := .setMode p mode) fun fs' hframe hpreserves =>
    sparing_settle hpreserves (fun e => herror fs' e hframe) fun fs'' => hok fs' fs'' hframe hpreserves

theorem sparing_rename {f : Except Refusal Unit → Program Files α} {p' : Path}
    (herror : ∀ fs' e, SameFrame fs fs' → (f (.error e)).Obeys (sparing start) post () fs')
    (hok : ∀ fs' fs'', SameFrame fs fs' → start.Preserves fs' → fs'.rename p p' = .ok fs'' →
      (SameFrame fs' fs'' ∧ start.Preserves fs'') ∧ (f (.ok ())).Obeys (sparing start) post () fs'') :
    (Files.rename p p' >>= f).Obeys (sparing start) post () fs :=
  sparing_call (c := .rename p p') fun fs' hframe hpreserves =>
    sparing_settle hpreserves (fun e => herror fs' e hframe) fun fs'' => hok fs' fs'' hframe hpreserves

/-- A staged file that is discarded is the only thing that goes. -/
theorem discard_sparing {staged : StagedFile} (h : Scratch start fs staged.path t) :
    staged.discard.Obeys (sparing start) (fun _ _ _ => True) () fs := by
  refine sparing_remove (fun _ _ _ => trivial) ?_
  intro fs' fs'' hframe hpreserves hremove
  obtain ⟨d, n, rfl, hnames, hnew, hfree⟩ := h.sameFrame hframe
  obtain ⟨s, hs, -, rfl⟩ := remove_eq_ok hremove
  rw [hnames.spot_eq_ok hs]
  exact ⟨spares_erase hpreserves hnew hfree, trivial⟩

theorem applyMode?_sparing {mode : Option UInt32} (h : Scratch start fs p t) :
    (applyMode? p mode).Obeys (sparing start) (fun _ _ fs' => Scratch start fs' p t) () fs := by
  cases mode with
  | none => exact h
  | some mode =>
    refine sparing_setMode (fun _ _ hframe => h.sameFrame hframe) ?_
    intro fs' fs'' hframe hpreserves hset
    have hscratch := h.sameFrame hframe
    obtain ⟨d, n, rfl, hnames, hnew, hfree⟩ := hscratch
    obtain ⟨q, x, hfind, rfl⟩ := setMode_eq_ok hset
    obtain ⟨rfl, mode', content, rfl, -⟩ := hnames.find_regular hfree hfind
    have hspares := spares_put_file hpreserves hnew hfree (mode &&& modeMask) content
    exact ⟨hspares, (h.sameFrame hframe).sameFrame hspares.1⟩

theorem sparing_createTemporary {f : Except Fault (Path × RealPath) → Program Files α}
    (herror : ∀ fs' e, SameFrame fs fs' → (f (.error e)).Obeys (sparing start) post () fs')
    (hok : ∀ fs' fs'' made, SameFrame fs fs' → start.Preserves fs' → fs'.createTemporary p n = .ok (made, fs'') →
      (SameFrame fs' fs'' ∧ start.Preserves fs'') ∧ (f (.ok made)).Obeys (sparing start) post () fs'') :
    (Files.createTemporary p n >>= f).Obeys (sparing start) post () fs := by
  refine sparing_call (c := .createTemporary p n) fun fs' hframe hpreserves => ?_
  cases hcreate : fs'.createTemporary p n with
  | error e =>
    have hanswer : fs'.answer (.createTemporary p n) = (.error e, fs') := by rw [answer, hcreate]
    rw [hanswer]
    exact ⟨⟨.refl fs', hpreserves⟩, herror fs' e hframe⟩
  | ok made =>
    have hanswer : fs'.answer (.createTemporary p n) = (.ok made.1, made.2) := by rw [answer, hcreate]
    rw [hanswer]
    exact hok fs' made.2 made.1 hframe hpreserves hcreate

/-- A temporary file is made where nothing stands, beside its destination. -/
theorem scratch_of_createTemporary (hproper : RealPath.IsProper (r ++ [n])) (h : start.Preserves fs)
    (hcreate : fs.createTemporary r.toPath (utf8 (lossy n)) = .ok ((p, t), fs')) :
    (SameFrame fs fs' ∧ start.Preserves fs') ∧ Scratch start fs' p t ∧
      ∃ d, fs'.Names (RealPath.toPath (r ++ [n])) d n := by
  obtain ⟨hr, hn⟩ := RealPath.isProper_append.1 hproper
  have hslash : slash ∉ utf8 (lossy n) := fun hmem =>
    (RealPath.isProper_singleton.1 hn).slash_not_mem (mem_of_mem_lossy (by decide) hmem)
  obtain ⟨d, i, hd, -, rfl, rfl, hnone, rfl⟩ := createTemporary_eq_ok hcreate
  have htemporary := isProperName_temporaryName (n := i) hslash
  rw [absolute, RealPath.isAbsolute_toPath, if_pos rfl] at hd ⊢
  rw [RealPath.push_toPath hr htemporary]
  have hnew := h.get?_eq_none hnone
  have hfree := frame_eq_none.2 (.inl hnone)
  have hspares := spares_put_file h hnew hfree newFileMode []
  have hd' := hspares.1.keeps.leadsTo hd
  refine ⟨hspares, ⟨d, _, rfl, ⟨r, ?_, rfl, hd'⟩, hnew, (hspares.1.frame _).trans hfree⟩, d, r, hproper, rfl, hd'⟩
  exact RealPath.isProper_append.2 ⟨hr, RealPath.isProper_singleton.2 htemporary⟩

/-- A file is staged where nothing stood, beside its destination. -/
theorem create_sparing (hproper : RealPath.IsProper (r ++ [n])) (options : WriteOptions) :
    (StagedFile.create (RealPath.toPath (r ++ [n])) content options).Obeys (sparing start)
      (fun result _ fs' => ∀ staged, result = .ok staged → ∃ t d, Scratch start fs' staged.path t ∧
        staged.destination = RealPath.toPath (r ++ [n]) ∧ fs'.Names (RealPath.toPath (r ++ [n])) d n) () fs := by
  unfold StagedFile.create
  rw [RealPath.fileName?_toPath hproper, directoryOf_toPath hproper]
  refine sparing_createTemporary (fun _ _ _ => nofun) ?_
  rintro fs₁ fs₂ ⟨path, t⟩ - hpreserves hcreate
  obtain ⟨hspares, hscratch, d, hnames⟩ := scratch_of_createTemporary hproper hpreserves hcreate
  refine ⟨hspares, ?_⟩
  refine sparing_call (c := .writeOpen t content) fun fs₃ hframe hpreserves₃ => ?_
  obtain ⟨-, -, -, -, hnew, hfree⟩ := hscratch.sameFrame hframe
  have hspares₃ := spares_writeOpen hpreserves₃ hnew hfree content
  have hframe₃ := hframe.trans hspares₃.1
  refine ⟨hspares₃, ?_⟩
  refine (applyMode?_sparing (hscratch.sameFrame hframe₃)).lasts.bind ?_
  rintro (e | ⟨⟩) ⟨⟩ fs₄ ⟨hscratch₄, hframe₄⟩
  · refine (discard_sparing hscratch₄).bind ?_
    exact fun _ _ _ _ => nofun
  · have hdone : ∀ fs₅, SameFrame fs₄ fs₅ → ∀ staged, Except.ok ⟨path, t, RealPath.toPath (r ++ [n])⟩ =
        (Except.ok staged : Except FsError StagedFile) → ∃ t d, Scratch start fs₅ staged.path t ∧
          staged.destination = RealPath.toPath (r ++ [n]) ∧ fs₅.Names (RealPath.toPath (r ++ [n])) d n := by
      rintro fs₅ hframe₅ _ ⟨⟩
      exact ⟨t, d, hscratch₄.sameFrame hframe₅, rfl,
        (hframe₃.trans (hframe₄.trans hframe₅)).keeps.names hnames⟩
    show (if options.sync then _ else _ : Program Files (Except FsError StagedFile)).Obeys _ _ _ _
    split
    · exact Program.Obeys.ask Discipline.letsAsk_keeping (fun _ => rfl) fun fs₅ hframe₅ _ => hdone fs₅ hframe₅
    · exact hdone fs₄ (.refl fs₄)

/-- A staged file goes to a destination that is vacant, or is discarded. -/
theorem commit_sparing {staged : StagedFile} (hscratch : Scratch start fs staged.path t)
    (hnames : fs.Names staged.destination d n) (hvacant : Vacant start fs staged.destination n) :
    staged.commit.Obeys (sparing start) (fun _ _ _ => True) () fs := by
  refine sparing_rename ?_ ?_
  · intro fs' e hframe
    exact (discard_sparing (hscratch.sameFrame hframe)).bind fun _ _ _ _ => trivial
  · intro fs' fs'' hframe hpreserves hrename
    exact ⟨spares_rename hpreserves (hscratch.sameFrame hframe) (hframe.keeps.names hnames)
      (hvacant.sameFrame hframe) hrename, trivial⟩

theorem reopen_sparing (staged : StagedFile) :
    staged.reopen.Obeys (sparing start) (fun _ _ _ => True) () fs := by
  refine ask_read Discipline.letsAsk_keeping fun fs' _ _ => ?_
  cases fs'.read staged.path <;> trivial

theorem writeVerified_sparing (hproper : RealPath.IsProper (r ++ [n])) (expected : Digest) (options : WriteOptions)
    (hvacant : Vacant start fs (RealPath.toPath (r ++ [n])) n) :
    (writeVerified (RealPath.toPath (r ++ [n])) content expected options).Obeys (sparing start)
      (fun _ _ _ => True) () fs := by
  unfold writeVerified
  refine (create_sparing hproper options).lasts.bind ?_
  rintro (e | staged) ⟨⟩ fs₁ ⟨hstaged, hframe₁⟩
  · trivial
  · obtain ⟨t, d, hscratch, hdestination, hnames⟩ := hstaged staged rfl
    refine (reopen_sparing staged).lasts.bind ?_
    rintro (e | written) ⟨⟩ fs₂ ⟨-, hframe₂⟩
    · exact (discard_sparing (hscratch.sameFrame hframe₂)).bind fun _ _ _ _ => trivial
    · show (if _ then _ else _ : Program Files (Except ExtractError Unit)).Obeys _ _ _ _
      split
      · exact (discard_sparing (hscratch.sameFrame hframe₂)).bind fun _ _ _ _ => trivial
      · rw [← hdestination] at hnames hvacant
        refine (commit_sparing (hscratch.sameFrame hframe₂) (hframe₂.keeps.names hnames)
          ((hvacant.sameFrame hframe₁).sameFrame hframe₂)).bind ?_
        rintro (e | ⟨⟩) ⟨⟩ fs₃ - <;> trivial

/-- A destination that is found free is vacant, and one at which a file is found keeps at most a regular file. -/
theorem existingDigest_sparing (destination : Path) (n : Name) :
    (existingDigest destination).Obeys (sparing start)
      (fun result _ fs' => ∀ found, result = .ok found → ∀ d, fs'.Names destination d n →
        (found = none → start.get? (d ++ [n]) = none) ∧ fs'.frame (d ++ [n]) = none) () fs := by
  unfold existingDigest
  refine ask_inspectLink Discipline.letsAsk_keeping ?_
  intro fs₁ _ hpreserves
  cases hinspect : fs₁.inspect false destination with
  | error e =>
    cases e with
    | notFound =>
      intro _ _ d hd
      obtain ⟨hnew, hfree⟩ := vacant_of_notFound hpreserves (find_of_inspect_error hinspect) d hd
      exact ⟨fun _ => hnew, hfree⟩
    | _ => exact nofun
  | ok info =>
    obtain ⟨q, x, hfind, hkind⟩ := inspect_eq_ok hinspect
    simp only [hkind]
    cases x with
    | file mode content =>
      refine ask_read Discipline.letsAsk_keeping fun fs₂ hframe _ => ?_
      cases fs₂.read destination with
      | error e => exact nofun
      | ok content' =>
        rintro _ ⟨⟩ d hd
        refine ⟨nofun, (hframe.frame _).trans (frame_eq_none.2 (.inr ⟨mode, content, ?_⟩))⟩
        obtain ⟨rfl, hget⟩ := (hframe.symm.keeps.names hd).find_eq_ok hfind
        exact hget
    | _ => exact nofun

variable {options : ExtractOptions}

/-- Files can take the place of nothing that stood at the start: what exists is skipped, or nothing stood there. -/
def ExtractOptions.Spares (options : ExtractOptions) (start : FileSystem) : Prop :=
  options.overwrite = .skipExisting ∨ ∀ q, start.get? q = none

/-- **A file entry takes a place where nothing stood**, or none, if what exists is skipped. -/
theorem writeFile_sparing (hspares : options.Spares start) (hreal : real.IsProper)
    (hproper : RealPath.IsProper (r ++ [n])) (e : Entry) (content : Bytes) :
    (writeFile options real.toPath (RealPath.toPath (r ++ [n])) e content).Obeys (sparing start)
      (fun _ _ _ => True) () fs := by
  unfold writeFile
  refine (confirmParent_obeys Discipline.letsAsk_keeping hreal hproper).bind ?_
  rintro (err | ⟨⟩) ⟨⟩ fs₁ -
  · trivial
  · refine (existingDigest_sparing _ n).bind ?_
    rintro (err | found) ⟨⟩ fs₂ hfound
    · trivial
    · replace hfound := hfound found rfl
      cases found with
      | none =>
        have hvacant : Vacant start fs₂ (RealPath.toPath (r ++ [n])) n := fun d hd => (hfound d hd).imp_left (· rfl)
        refine (writeVerified_sparing hproper e.digest ⟨e.mode, options.sync⟩ hvacant).bind ?_
        exact fun _ _ _ _ => trivial
      | some existing =>
        cases hleave : options.overwrite.leave? (existing == e.digest) with
        | some o =>
          simp only [hleave]
          trivial
        | none =>
          -- a file that exists is replaced only if it did not stand there at the start
          have hnothing : ∀ q, start.get? q = none := by
            refine hspares.resolve_left fun hskip => ?_
            rcases OverwritePolicy.leave?_eq_none_iff.1 hleave with hforce | ⟨hchanged, -⟩
            · cases hskip.symm.trans hforce
            · cases hskip.symm.trans hchanged
          have hvacant : Vacant start fs₂ (RealPath.toPath (r ++ [n])) n := fun d hd => ⟨hnothing _, (hfound d hd).2⟩
          simp only [hleave]
          refine (writeVerified_sparing hproper e.digest ⟨e.mode, options.sync⟩ hvacant).bind ?_
          exact fun _ _ _ _ => trivial

/-! ## The file pass -/

section Run

variable (hquiet : options.IsQuiet) {plan : RunPlan} {image : Image} {slot : Slot} {slots pending : List Slot}
  {names : RealPath} {s s' : RunState}

theorem placeFile_sparing (hspares : plan.options.Spares start) (hroot : plan.realRoot = real.toPath)
    (hreal : real.IsProper) (hproper : RealPath.IsProper (r ++ [n])) (e : Entry) :
    (plan.placeFile image (RealPath.toPath (r ++ [n])) e).Obeys ((sparing start).inSession hquiet)
      (fun _ _ _ => True) () s := by
  unfold RunPlan.placeFile
  rw [hroot]
  refine (writeFile_sparing hspares hreal hproper e _).onFiles.bind ?_
  rintro (err | o) ⟨⟩ t -
  · refine ((isTacit_fileFailed plan err).obeys).bind ?_
    rintro o ⟨⟩ u -
    exact ((isTacit_entryDone plan _ _).obeys).bind fun _ _ _ _ => trivial
  · exact ((isTacit_entryDone plan _ _).obeys).bind fun _ _ _ _ => trivial

/-- What the pool needs of jobs that preserve what stood at the start. -/
theorem workable_sparing (image : Image) (start : FileSystem) (hspares : plan.options.Spares start)
    (hroot : plan.Rooted names real fs)
    (hpending : ∀ slot ∈ pending, ∀ p, slot.destination = some p → sanitize plan.root slot.entry.path = .ok p) :
    Workable ((sparing start).inSession hquiet) Session.isHalted (plan.fileJob image pending) (fun _ => True)
      (fun _ _ _ => True) := by
  constructor
  · intro k t _
    exact isTacit_isHalted.obeys.imp fun _ _ _ h => h.1
  · intro i k t _
    unfold RunPlan.fileJob
    split
    · next e destination outcome made hget =>
      have hsanitized := hpending _ (List.mem_of_getElem? hget) destination rfl
      rw [hroot.root] at hsanitized
      dsimp only at hsanitized
      obtain ⟨r, hproper, rfl⟩ := exists_destination_eq hroot.properNames hsanitized
      refine (placeFile_sparing hquiet hspares hroot.realRoot hroot.properReal hproper e).imp ?_
      exact fun _ _ _ _ => ⟨trivial, trivial, fun _ _ h => h⟩
    · exact ⟨trivial, trivial, fun _ _ h => h⟩

section Files

variable (schedule : List Nat) (hplan : plan.options = options) (hspares : options.Spares start)
  (hroot : plan.Rooted names real s.fs)
  (hpending : ∀ slot ∈ pending, ∀ p, slot.destination = some p → sanitize plan.root slot.entry.path = .ok p)
  (hpreserves : start.Preserves s.fs) {results : List (Option Outcome)}
  (h : plan.files schedule image pending s = (results, s'))

include hplan hspares hroot hpending hpreserves h

theorem files_reach : ((sparing start).inSession hquiet).Reach s s' := by
  subst hplan
  have hwork := workable_sparing hquiet image start hspares hroot hpending
  obtain ⟨-, hreach, -⟩ := runBounded_obeys hwork schedule pending.length plan.options.workers (k := ())
    trivial hpreserves fun _ => trivial
  unfold RunPlan.files at h
  rwa [h] at hreach

include hquiet in
/-- Whatever the workers do along whatever schedule, what stood at the start stands when they are done. -/
theorem files_sparing : SameFrame s.fs s'.fs ∧ start.Preserves s'.fs := by
  have hreach := files_reach hquiet schedule hplan hspares hroot hpending hpreserves h
  obtain ⟨hframe, hkept⟩ := Discipline.reach_keeping (Discipline.reach_of_inSession hreach)
  exact ⟨hframe, hkept hpreserves⟩

end Files

/-! ## Modes -/

/-- The discipline of the end of a run, which sets modes where nothing stood at the start. -/
abbrev finishing (start : FileSystem) : Discipline (I := Files) FileSystem.answer Unit :=
  .keeping _ start.Preserves Keeps .refl .trans

/-- A mode that is set at a new directory. -/
theorem applyMode_finishing (hd : fs.LeadsTo p d) (hnew : start.get? d = none) (mode : UInt32) :
    (applyMode p mode).Obeys (finishing start) (fun _ _ _ => True) () fs := by
  intro fs' hkeeps hpreserves
  have hcall : Keeps fs' (fs'.settle (fs'.setMode p mode)).2 ∧
      start.Preserves (fs'.settle (fs'.setMode p mode)).2 := by
    refine settle_cases (P := fun _ fs'' => Keeps fs' fs'' ∧ start.Preserves fs'')
      (fun _ _ => ⟨.refl fs', hpreserves⟩) ?_
    intro fs'' hset
    obtain ⟨q, x, hfind, rfl⟩ := setMode_eq_ok hset
    obtain ⟨hresolve, hget⟩ := find_eq_ok_iff.1 hfind
    obtain rfl : d = q := Except.ok.inj ((hkeeps.leadsTo hd).1.symm.trans hresolve)
    exact ⟨keeps_put_withMode hget _, hpreserves.put hnew _⟩
  refine ⟨(), hcall.1, hcall.2, ?_⟩
  generalize (FileSystem.answer (.setMode p mode) fs').1 = result
  cases result <;> trivial

theorem finishDirectories_finishing (hmade : ∀ slot ∈ slots, slot.MadeNew start s.fs) :
    (RunPlan.finishDirectories slots).Obeys ((finishing start).inSession hquiet)
      (fun _ _ s' => Keeps s.fs s'.fs) () s := by
  induction slots with
  | nil => exact .refl s.fs
  | cons slot rest ih =>
    obtain ⟨hhead, htail⟩ := List.forall_mem_cons.1 hmade
    unfold RunPlan.finishDirectories
    refine (ih htail).bind ?_
    rintro rest' ⟨⟩ t hkeeps
    have hend : ∀ {slot' : Slot} {u : RunState}, Keeps t.fs u.fs →
        (Program.done slot' : Program Session Slot).Obeys ((finishing start).inSession hquiet)
          (fun _ _ s' => Keeps s.fs s'.fs) () u := fun hkeeps' => hkeeps.trans hkeeps'
    suffices hslot : (RunPlan.finishDirectory slot).Obeys ((finishing start).inSession hquiet)
        (fun _ _ s' => Keeps s.fs s'.fs) () t by
      refine hslot.bind ?_
      rintro slot' ⟨⟩ u hkeeps'
      exact hkeeps'
    unfold RunPlan.finishDirectory
    split
    · next mode destination hslot _ hdestination =>
      obtain ⟨p, d, hp, hd, hnew⟩ := (hhead.keeps hkeeps) hslot
      obtain rfl := Option.some.inj (hdestination.symm.trans hp)
      refine (applyMode_finishing hd hnew mode).lasts.onFiles.bind ?_
      rintro (e | ⟨⟩) ⟨⟩ u ⟨-, hkeeps'⟩ <;> exact hend hkeeps'
    · exact hend (.refl t.fs)

theorem conclude_finishing (hmade : ∀ slot ∈ slots, slot.MadeNew start s.fs) (bytesWritten : Nat) :
    (plan.conclude slots bytesWritten).Obeys ((finishing start).inSession hquiet) (fun _ _ _ => True) () s := by
  refine (finishDirectories_finishing hquiet hmade).bind ?_
  rintro slots' ⟨⟩ t -
  have hlooks : Session.isCancelled.IsTacit := ⟨trivial, fun _ => trivial⟩
  exact Program.Obeys.bind hlooks.obeys fun _ _ _ _ => trivial

/-- The results of files say nothing of directories. -/
theorem madeNew_assigned {results : List (Option Outcome)} (hmade : ∀ slot ∈ slots, slot.MadeNew start fs) :
    ∀ slot ∈ RunPlan.assignResults slots results, slot.MadeNew start fs := by
  intro slot hslot
  rcases mem_assignResults hslot with ⟨hmem, -⟩ | ⟨i, slot', hget, rfl⟩
  · exact hmade slot hmem
  · exact hmade slot' (List.mem_filter.1 (List.mem_of_getElem? hget)).1

end Run

/-! ## A whole run -/

section Whole

variable {names : RealPath} {plan : RunPlan} {image : Image} {slots : List Slot} {entries : List Entry}
  {s s' : RunState}

/-- The passes of a run preserve what stood at the start, if what was done before them only added directories. -/
theorem execute_preserves (hquiet : options.IsQuiet) (hskip : options.overwrite = .skipExisting)
    (schedule : List Nat) (hplan : plan.options = options) (hroot : plan.Rooted names real s.fs)
    (hready : Ready plan.root real s.fs entries slots) (hfresh : ∀ slot ∈ slots, slot.Fresh)
    (hgrows : Grows start s.fs) {result : Except ExtractError Report}
    (h : plan.execute schedule image slots s = (result, s')) : start.Preserves s'.fs := by
  have hdestinations := fun slot hslot => (hready.sound slot hslot).destination
  unfold RunPlan.execute at h
  cases hdirectories : (plan.directories slots).run (RunState.handler options) s with
  | mk passed s₁ =>
    obtain ⟨⟨⟩, ⟨hgrows₁, hpassed⟩, -, -⟩ :=
      (directories_growing hquiet hroot hgrows hdestinations hfresh).run trivial
    rw [hdirectories] at hgrows₁ hpassed
    have hpreserves₁ := (hgrows.trans hgrows₁).preserves
    rw [hplan, hdirectories] at h
    cases passed with
    | error e =>
      cases h
      exact hpreserves₁
    | ok slots₁ =>
      obtain ⟨-, hprepared⟩ := hpassed slots₁ rfl
      have hroot₁ := hroot.keeps hgrows₁.keeps
      cases hfiles : plan.files schedule image (slots₁.filter (·.isPending)) s₁ with
      | mk results s₂ =>
        obtain ⟨hframe, hpreserves₂⟩ := files_sparing hquiet schedule hplan (.inl hskip) hroot₁
          (fun slot hslot => (hprepared slot (List.mem_filter.1 hslot).1).destination) hpreserves₁ hfiles
        simp only [hfiles] at h
        cases hfatal : s₂.fatal with
        | some cause =>
          simp only [hfatal] at h
          cases h
          exact hpreserves₂
        | none =>
          simp only [hfatal] at h
          have hmade : ∀ slot ∈ slots₁, slot.MadeNew start s₂.fs := fun slot hslot =>
            (hprepared slot hslot).grounded.made.keeps hframe.keeps
          have hconclude : (plan.conclude (RunPlan.assignResults slots₁ results) s₂.bytesWritten).Obeys
              ((finishing start).inSession hquiet) (fun _ _ _ => True) () s₂ :=
            conclude_finishing hquiet (madeNew_assigned hmade) _
          obtain ⟨⟨⟩, -, hfit, -⟩ := hconclude.run hpreserves₂
          cases h
          exact hfit

/-- **The default policy destroys nothing.** A run under `skipExisting` leaves whatever stood in the file system
    as it was: files, directories and links, with their content, targets and modes. This is so for every image
    and target, whatever links there are, however many workers take turns in whatever way, and whether the run
    ends in a report, is cancelled or fails; only new entries may be there. -/
theorem extract_preserves (hquiet : options.IsQuiet) (hskip : options.overwrite = .skipExisting)
    (schedule : List Nat) (image : Image) (target : Option Path) (fs : FileSystem)
    {result : Except ExtractError Report} {s : RunState}
    (h : extract options schedule image target (.start fs options) = (result, s)) :
    ∀ q x, fs.get? q = some x → s.fs.get? q = some x := by
  obtain ⟨err, hprepare, -⟩ | ⟨plan, slots, s₁, hprepare, hexecute⟩ := extract_prepared h
  · exact (run_prepare_grows hquiet hprepare).1.preserves
  · obtain ⟨hgrows, hfresh⟩ := run_prepare_grows hquiet hprepare
    rcases prepare_run hquiet hprepare with ⟨-, -, e, he⟩ | ⟨names, -, -, -, hplan⟩
    · cases he
    · obtain ⟨hoptions, real, hrooted, hready⟩ := hplan plan slots rfl
      exact execute_preserves hquiet hskip schedule hoptions hrooted hready (hfresh plan slots rfl) hgrows hexecute

/-- Two workers write a file through a link inside the root, and leave another one there that differs. -/
theorem extract_preserves_linked_directory :
    let options : ExtractOptions := { workers := 2 }
    let image : Image := ⟨[120, 121], ⟨[.directory "l" (some 0o700), .file "l/f" 0 1 (.of [120]) none,
      .file "l/g" 1 1 (.of [121]) none]⟩, 0, 2⟩
    let fs : FileSystem := ⟨[([], .directory 0o755), ([utf8 "out"], .directory 0o755),
      ([utf8 "out", utf8 "d"], .directory 0o755), ([utf8 "out", utf8 "d", utf8 "f"], .file 0o600 [122]),
      ([utf8 "out", utf8 "l"], .symlink (utf8 "d"))], [], .ofString "/bin/unpack"⟩
    let ended := extract options [0, 1, 1, 0] image (some (.ofString "/out")) (.start fs options)
    (options.IsQuiet ∧ options.overwrite = .skipExisting) ∧
      ended.1.toOption.map (fun r => r.entries.map (·.outcome)) = some [.skippedUnchanged, .diverged, .created] ∧
      ended.2.fs.get? [utf8 "out", utf8 "d", utf8 "g"] = some (.file 0o644 [121]) ∧
      ∀ q x, fs.get? q = some x → ended.2.fs.get? q = some x := by
  intro options image fs ended
  have hquiet : options.IsQuiet := fun _ hlistener => nomatch hlistener
  exact ⟨⟨hquiet, rfl⟩, by decide +kernel, by decide +kernel,
    extract_preserves hquiet rfl [0, 1, 1, 0] image (some (.ofString "/out")) fs rfl⟩

end Whole

end TreeImage
