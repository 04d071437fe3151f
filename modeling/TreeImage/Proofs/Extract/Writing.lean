import TreeImage.Extract.Write
import TreeImage.Proofs.Extract.Confirmation
import TreeImage.Proofs.Extract.Holdings

set_option autoImplicit false

/-! # What writing a file does

A program that holds the destination of a file, and the places of its temporary files, writes the file as
if it were alone: what it holds tells how it ends (`writeFile_foretold`). `FileSettled` says in which ways
this can be, with what stood at the destination before and after. No temporary file is left in any of
them. -/

namespace TreeImage

open FileSystem Holding

variable {start fs : FileSystem} {within : RealPath → Prop} {real d r : RealPath} {n : Name} {k : Holding}
  {p : Path} {content : Bytes} {v v' : Option Node}

/-! ## Staging -/

/-- Where temporary file number `i` for the file `n` in the directory at `d` lies. -/
def stagingPlace (d : RealPath) (n : Name) (i : Nat) : RealPath := d ++ [temporaryName n i]

theorem stagingPlace_ne (d : RealPath) (n : Name) (i : Nat) : stagingPlace d n i ≠ d ++ [n] := by
  intro h
  have hlength := congrArg List.length (List.singleton_inj.1 (List.append_cancel_left h))
  have := length_lt_temporaryName n i
  omega

/-- Temporary file number `i` is the first one whose place is free. -/
def Holding.FirstFree (k : Holding) (d : RealPath) (n : Name) (i : Nat) : Prop :=
  k (stagingPlace d n i) = some none ∧ ∀ j < i, k (stagingPlace d n j) ≠ some none

/-- The first free place for a temporary file has a name that a directory can hold. -/
def Holding.Stageable (k : Holding) (d : RealPath) (n : Name) : Prop :=
  ∃ i, k (stagingPlace d n i) = some none ∧ (∀ j < i, k (stagingPlace d n j) ≠ some none) ∧
    (temporaryName n i).length ≤ nameLimit

theorem Holding.FirstFree.unique {i j : Nat} (hi : k.FirstFree d n i) (hj : k.FirstFree d n j) : i = j := by
  rcases Nat.lt_trichotomy i j with hlt | heq | hgt
  · exact absurd hi.1 (hj.2 i hlt)
  · exact heq
  · exact absurd hj.1 (hi.2 j hgt)

theorem Holding.FirstFree.stageable_iff {i : Nat} (h : k.FirstFree d n i) :
    k.Stageable d n ↔ (temporaryName n i).length ≤ nameLimit := by
  constructor
  · rintro ⟨j, hj, hjfirst, hshort⟩
    exact h.unique ⟨hj, hjfirst⟩ ▸ hshort
  · exact fun hshort => ⟨i, h.1, h.2, hshort⟩

/-- The file system chooses the first place that is free. -/
theorem Holding.Fits.exists_firstFree (hfit : k.Fits start within fs)
    (hstaging : ∀ i, k.Holds (stagingPlace d n i)) :
    ∃ i, k.FirstFree d n i ∧ fs.freshName d n = temporaryName n i := by
  obtain ⟨i, hfresh, hfree, hbefore⟩ := exists_freshName_eq_first fs d n
  have hknown : ∀ j, k (stagingPlace d n j) = some (fs.get? (stagingPlace d n j)) :=
    fun j => hfit.eq_get? (hstaging j)
  refine ⟨i, ⟨(hknown i).trans (congrArg some hfree), ?_⟩, hfresh⟩
  intro j hj hnone
  exact hbefore j hj (Option.some.inj ((hknown j).symm.trans hnone))

theorem Holding.FirstFree.freshName {i : Nat} (h : k.FirstFree d n i) (hfit : k.Fits start within fs)
    (hstaging : ∀ i, k.Holds (stagingPlace d n i)) : fs.freshName d n = temporaryName n i := by
  obtain ⟨j, hj, hfresh⟩ := hfit.exists_firstFree hstaging
  rw [hfresh, h.unique hj]

/-- What a program that writes the file `n` in the directory at `d` works with: the destination has this
    name, and the places at which it works are held. -/
structure Writable (start : FileSystem) (k : Holding) (p : Path) (d : RealPath) (n : Name) : Prop where
  names : start.Names p d n
  text : utf8 (lossy n) = n
  home : k.Holds (d ++ [n])
  staging : ∀ i, k.Holds (stagingPlace d n i)

/-- The path leads to temporary file number `i`, and this is what stands there. -/
structure Staged (start : FileSystem) (k : Holding) (path : Path) (d : RealPath) (n : Name) (i : Nat)
    (mode : UInt32) (content : Bytes) : Prop where
  names : start.Names path d (temporaryName n i)
  acceptable : IsAcceptable (temporaryName n i)
  known : k (stagingPlace d n i) = some (some (.file mode content))

namespace Staged

variable {path : Path} {i : Nat} {mode : UInt32}

theorem holds (h : Staged start k path d n i mode content) : k.Holds (stagingPlace d n i) :=
  Option.isSome_iff_exists.2 ⟨_, h.known⟩

theorem get? (h : Staged start k path d n i mode content) (hfit : k.Fits start within fs) :
    fs.get? (stagingPlace d n i) = some (.file mode content) := hfit.known _ _ h.known

theorem frame (h : Staged start k path d n i mode content) (hfit : k.Fits start within fs) :
    fs.frame (stagingPlace d n i) = none := frame_eq_none.2 (.inr ⟨mode, content, h.get? hfit⟩)

/-- The temporary file is removed. -/
theorem discard (staged : StagedFile) (h : Staged start k staged.path d n i mode content) :
    staged.discard.Foretold (holding start within) (fun _ k' => k' = k.set (stagingPlace d n i) none) k := by
  refine holding_change (c := .remove staged.path) (.ok ()) _ ?_ rfl
  intro fs hfit
  have hremove := (hfit.frame.keeps.names h.names).remove_file h.acceptable (h.get? hfit)
  have hanswer : fs.answer (.remove staged.path) = (.ok (), fs.erase (stagingPlace d n i)) := by
    rw [answer, hremove]
    rfl
  exact ⟨_, hanswer, hfit.erase h.holds (h.frame hfit)⟩

/-- The mode that is wanted is set. -/
theorem applyMode? (h : Staged start k path d n i newFileMode content) (options : WriteOptions) :
    (TreeImage.applyMode? path options.mode).Foretold (holding start within)
      (fun result k' => result = .ok () ∧
        k' = k.set (stagingPlace d n i) (some (.file options.fileMode content))) k := by
  unfold WriteOptions.fileMode
  cases options.mode with
  | none => exact ⟨rfl, (set_eq_self h.known).symm⟩
  | some mode =>
    refine holding_change (c := .setMode path mode) (.ok ()) _ ?_ ⟨rfl, rfl⟩
    intro fs hfit
    have hset := (hfit.frame.keeps.names h.names).setMode h.acceptable (h.get? hfit)
      (by simp [Node.kind]) mode
    have hanswer : fs.answer (.setMode path mode) =
        (.ok (), fs.put (stagingPlace d n i) (.file (mode &&& modeMask) content)) := by
      rw [answer, hset]
      rfl
    exact ⟨_, hanswer, hfit.put_file h.holds (h.frame hfit) (mode &&& modeMask) content⟩

/-- What is read back is what was staged. -/
theorem reopen (staged : StagedFile) (h : Staged start k staged.path d n i mode content) :
    staged.reopen.Foretold (holding start within) (fun result k' => result = .ok content ∧ k' = k) k := by
  refine holding_ask (c := .read staged.path) (.ok content) ?_ ⟨rfl, rfl⟩
  intro fs hfit
  exact congrArg (·, fs) ((hfit.frame.keeps.names h.names).read_file h.acceptable (h.get? hfit))

/-- The staged content goes to its destination. -/
theorem commit (staged : StagedFile) (h : Staged start k staged.path d n i mode content)
    (hwritable : Writable start k staged.destination d n) (hn : IsAcceptable n) (hv : k (d ++ [n]) = some v)
    (hregular : ∀ x, v = some x → x.kind = .file) :
    staged.commit.Foretold (holding start within) (fun result k' => result = .ok () ∧
      k' = (k.set (stagingPlace d n i) none).set (d ++ [n]) (some (.file mode content))) k := by
  refine holding_change (c := .rename staged.path staged.destination) (.ok ()) _ ?_ ⟨rfl, rfl⟩
  intro fs hfit
  have hget : fs.get? (d ++ [n]) = v := hfit.known _ _ hv
  have hframe : fs.frame (d ++ [n]) = none := by
    rw [FileSystem.frame, hget]
    cases v with
    | none => rfl
    | some x => simp [hregular x rfl, Option.filter]
  have hdir : fs.isDirectoryAt (d ++ [n]) = false := by
    rw [← Bool.not_eq_true, isDirectoryAt_iff]
    rintro ⟨m, hm⟩
    have := hregular _ (hget.symm.trans hm)
    simp [Node.kind] at this
  have hrename := (hfit.frame.keeps.names h.names).rename_file h.acceptable
    (hfit.frame.keeps.names hwritable.names) hn (h.get? hfit) hdir (stagingPlace_ne d n i)
  have hanswer : fs.answer (.rename staged.path staged.destination) =
      (.ok (), (fs.erase (stagingPlace d n i)).put (d ++ [n]) (.file mode content)) := by
    rw [answer, hrename]
    rfl
  exact ⟨_, hanswer, hfit.move_file h.holds hwritable.home (h.frame hfit) hframe⟩

end Staged

/-- What staging the content of a file comes to: a temporary file, unless its name would be too long. -/
inductive CreatedBeside (start : FileSystem) (k : Holding) (p : Path) (d : RealPath) (n : Name)
    (content : Bytes) (options : WriteOptions) : Except FsError StagedFile → Holding → Prop
  | crowded {e : FsError} (hstage : ¬k.Stageable d n) : CreatedBeside start k p d n content options (.error e) k
  | staged {path : Path} {i : Nat} (hstage : k.Stageable d n) (hfree : k (stagingPlace d n i) = some none)
      (hstaged : Staged start (k.set (stagingPlace d n i) (some (.file options.fileMode content))) path d n i
        options.fileMode content) :
      CreatedBeside start k p d n content options (.ok ⟨path, stagingPlace d n i, p⟩)
        (k.set (stagingPlace d n i) (some (.file options.fileMode content)))

theorem create_foretold (h : Writable start k p d n) (hnul : n.contains 0 = false) (options : WriteOptions) :
    (StagedFile.create p content options).Foretold (holding start within)
      (fun result k' => CreatedBeside start k p d n content options result k') k := by
  obtain ⟨r, hproper, rfl, hd⟩ := h.names
  obtain ⟨hr, hn⟩ := RealPath.isProper_append.1 hproper
  have hdirectory : StagedFile.directoryOf (RealPath.toPath (r ++ [n])) = r.toPath := by
    rw [StagedFile.directoryOf, RealPath.parent?_toPath hproper]
    rfl
  rw [StagedFile.create, h.names.fileName?, hdirectory]
  simp only [h.text]
  refine Program.foretold_of_fit (I := Files) (c := FileCall.createTemporary r.toPath n) ?_
  intro fs₀ hfit₀
  obtain ⟨i, hfirst, -⟩ := hfit₀.exists_firstFree h.staging
  have hcreate : ∀ fs : FileSystem, k.Fits start within fs → _ := fun fs hfit =>
    hfirst.freshName hfit h.staging ▸ (hfit.frame.keeps.leadsTo hd).createTemporary hnul
  by_cases hlong : nameLimit < (temporaryName n i).length
  · refine holding_ask (c := .createTemporary r.toPath n)
      (.error ⟨.nameTooLong, some (r.toPath.push (temporaryName n 0))⟩) ?_ (.crowded ?_)
    · intro fs hfit
      rw [answer, hcreate fs hfit, if_pos hlong]
    · rw [hfirst.stageable_iff, Nat.not_le]
      exact hlong
  · have hshort : (temporaryName n i).length ≤ nameLimit := Nat.not_lt.1 hlong
    have htemporary : IsProperName (temporaryName n i) :=
      isProperName_temporaryName (RealPath.isProper_singleton.1 hn).slash_not_mem
    have hnames : start.Names (RealPath.toPath (r ++ [temporaryName n i])) d (temporaryName n i) :=
      ⟨r, RealPath.isProper_append.2 ⟨hr, RealPath.isProper_singleton.2 htemporary⟩, rfl, hd⟩
    have hacceptable : IsAcceptable (temporaryName n i) := ⟨contains_temporaryName hnul i, hshort⟩
    refine holding_change (c := .createTemporary r.toPath n)
      (.ok (RealPath.toPath (r ++ [temporaryName n i]), stagingPlace d n i))
      (k.set (stagingPlace d n i) (some (.file newFileMode []))) ?_ ?_
    · intro fs hfit
      have hgone : fs.frame (stagingPlace d n i) = none := frame_eq_none.2 (.inl (hfit.known _ _ hfirst.1))
      refine ⟨fs.put (stagingPlace d n i) (.file newFileMode []), ?_, hfit.put_file (h.staging i) hgone newFileMode []⟩
      rw [answer, hcreate fs hfit, if_neg hlong, RealPath.push_toPath hr htemporary]
      rfl
    -- the file is made, and is given its content
    have hempty : Staged start (k.set (stagingPlace d n i) (some (.file newFileMode [])))
        (RealPath.toPath (r ++ [temporaryName n i])) d n i newFileMode [] :=
      ⟨hnames, hacceptable, set_self ..⟩
    refine holding_change (c := .writeOpen (stagingPlace d n i) content) ()
      (k.set (stagingPlace d n i) (some (.file newFileMode [])) |>.set (stagingPlace d n i)
        (some (.file newFileMode content))) ?_ ?_
    · intro fs hfit
      exact ⟨_, congrArg (Prod.mk ()) (writeOpen_eq (hempty.get? hfit)),
        hfit.put_file hempty.holds (hempty.frame hfit) newFileMode content⟩
    rw [set_set]
    have hwritten : Staged start (k.set (stagingPlace d n i) (some (.file newFileMode content)))
        (RealPath.toPath (r ++ [temporaryName n i])) d n i newFileMode content :=
      ⟨hnames, hacceptable, set_self ..⟩
    refine (hwritten.applyMode? options).bind ?_
    rintro _ _ ⟨rfl, rfl⟩
    rw [set_set]
    have hdone : CreatedBeside start k (RealPath.toPath (r ++ [n])) d n content options (.ok _) _ :=
      .staged (hfirst.stageable_iff.2 hshort) hfirst.1 ⟨hnames, hacceptable, set_self ..⟩
    show (if options.sync then _ else _ : Program Files (Except FsError StagedFile)).Foretold _ _ _
    split
    · exact holding_ask (c := .flush (stagingPlace d n i)) () (fun _ _ => rfl) hdone
    · exact hdone

/-! ## Verified content -/

/-- How writing content to its destination can end, with what is known afterwards. -/
inductive WriteSettled (k : Holding) (d : RealPath) (n : Name) (content : Bytes) (expected : Digest)
    (options : WriteOptions) : Except ExtractError Unit → Holding → Prop
  | crowded {e : ExtractError} (hkind : e.kind = .write) (hstage : ¬k.Stageable d n) :
      WriteSettled k d n content expected options (.error e) k
  | corrupt {e : ExtractError} (hkind : e.kind = .writeVerification) (hstage : k.Stageable d n)
      (hdigest : Digest.of content ≠ expected) : WriteSettled k d n content expected options (.error e) k
  | written (hstage : k.Stageable d n) (hdigest : Digest.of content = expected) :
      WriteSettled k d n content expected options (.ok ())
        (k.set (d ++ [n]) (some (.file options.fileMode content)))

/-- **Verified content is written, or nothing is changed.** -/
theorem writeVerified_foretold (h : Writable start k p d n) (hn : IsAcceptable n) (hv : k (d ++ [n]) = some v)
    (hregular : ∀ x, v = some x → x.kind = .file) (expected : Digest) (options : WriteOptions) :
    (writeVerified p content expected options).Foretold (holding start within)
      (fun result k' => WriteSettled k d n content expected options result k') k := by
  rw [writeVerified]
  refine (create_foretold h hn.1 options).bind ?_
  intro result k₁ hcreated
  cases hcreated with
  | crowded hstage => exact .crowded rfl hstage
  | @staged path i hstage hfree hstaged =>
    have hne := stagingPlace_ne d n i
    refine (hstaged.reopen ⟨path, _, p⟩).bind ?_
    rintro _ k₂ ⟨rfl, rfl⟩
    show (if Digest.of content ≠ expected then _ else _ : Program Files (Except ExtractError Unit)).Foretold _ _ _
    split
    · next hdigest =>
      refine (hstaged.discard ⟨path, _, p⟩).bind ?_
      rintro _ k₃ rfl
      rw [set_set, set_eq_self hfree]
      exact .corrupt rfl hstage hdigest
    · next hdigest =>
      have hwritable : Writable start (k.set (stagingPlace d n i) (some (.file options.fileMode content)))
          p d n := ⟨h.names, h.text, h.home.set .., fun j => (h.staging j).set ..⟩
      have hv' : k.set (stagingPlace d n i) (some (.file options.fileMode content)) (d ++ [n]) = some v := by
        rw [set_of_ne hne.symm, hv]
      refine (hstaged.commit ⟨path, _, p⟩ hwritable hn hv' hregular).bind ?_
      rintro _ k₃ ⟨rfl, rfl⟩
      rw [set_set, set_eq_self hfree]
      exact .written hstage (not_not.1 hdigest)

/-! ## A file entry -/

/-- The node that a file entry with this content is to be. -/
def Entry.fileNode (e : Entry) (content : Bytes) : Node :=
  .file ((e.mode.map (· &&& modeMask)).getD newFileMode) content

/-- How bringing a file entry to its destination can end: what stood there, the result, and what stands
    there afterwards. `stageable` says whether there is a name for the temporary file. -/
inductive FileSettled (options : ExtractOptions) (e : Entry) (n : Name) (content : Bytes) (stageable : Prop) :
    Option Node → Except ExtractError Outcome → Option Node → Prop
  | refused {v : Option Node} {err : ExtractError} (hkind : err.kind = .write) (hn : ¬IsAcceptable n) :
      FileSettled options e n content stageable v (.error err) v
  | obstructed {x : Node} {err : ExtractError} (hkind : err.kind = .conflict) (hx : x.kind ≠ .file) :
      FileSettled options e n content stageable (some x) (.error err) (some x)
  | left {mode : UInt32} {old : Bytes} {o : Outcome} (hn : IsAcceptable n)
      (hleave : options.overwrite.leave? (Digest.of old == e.digest) = some o) :
      FileSettled options e n content stageable (some (.file mode old)) (.ok o) (some (.file mode old))
  | crowded {v : Option Node} {err : ExtractError} (hkind : err.kind = .write) (hstage : ¬stageable) :
      FileSettled options e n content stageable v (.error err) v
  | corrupt {v : Option Node} {err : ExtractError} (hkind : err.kind = .writeVerification)
      (hstage : stageable) (hdigest : Digest.of content ≠ e.digest) :
      FileSettled options e n content stageable v (.error err) v
  | created (hn : IsAcceptable n) (hstage : stageable) (hdigest : Digest.of content = e.digest) :
      FileSettled options e n content stageable none (.ok .created) (some (e.fileNode content))
  | overwritten {mode : UInt32} {old : Bytes} (hn : IsAcceptable n) (hdigest : Digest.of content = e.digest)
      (hleave : options.overwrite.leave? (Digest.of old == e.digest) = none) :
      FileSettled options e n content stageable (some (.file mode old)) (.ok .overwritten)
        (some (e.fileNode content))

/-- What a look at the destination tells. -/
inductive Looked (n : Name) : Option Node → Except ExtractError (Option Digest) → Prop
  | refused {v : Option Node} {err : ExtractError} (hkind : err.kind = .write) (hn : ¬IsAcceptable n) :
      Looked n v (.error err)
  | obstructed {x : Node} {err : ExtractError} (hkind : err.kind = .conflict) (hx : x.kind ≠ .file) :
      Looked n (some x) (.error err)
  | free (hn : IsAcceptable n) : Looked n none (.ok none)
  | taken {mode : UInt32} {old : Bytes} (hn : IsAcceptable n) :
      Looked n (some (.file mode old)) (.ok (some (.of old)))

theorem existingDigest_foretold (h : Writable start k p d n) (hv : k (d ++ [n]) = some v) :
    (existingDigest p).Foretold (holding start within) (fun result k' => Looked n v result ∧ k' = k) k := by
  rw [existingDigest]
  -- the destination is looked at, and the reply is known
  have hlook : ∀ {next : Except Refusal NodeInfo → Program Files (Except ExtractError (Option Digest))}
      (reply : Except Refusal NodeInfo), (∀ fs, k.Fits start within fs → fs.inspect false p = reply) →
      (next reply).Foretold (holding start within) (fun result k' => Looked n v result ∧ k' = k) k →
      (Program.bind (Files.inspectLink p) next).Foretold (holding start within)
        (fun result k' => Looked n v result ∧ k' = k) k :=
    fun reply hreply hnext =>
      holding_ask (c := .inspect false p) reply (fun fs hfit => congrArg (·, fs) (hreply fs hfit)) hnext
  by_cases hn : IsAcceptable n
  · cases v with
    | none =>
      refine hlook (.error .notFound) (fun fs hfit => ?_) ⟨.free hn, rfl⟩
      exact inspect_of_find_error ((hfit.frame.keeps.names h.names).find_free hn (hfit.known _ _ hv))
    | some x =>
      refine hlook (.ok ⟨x.kind, x.mode &&& modeMask, x.content.length⟩) (fun fs hfit => ?_) ?_
      · exact inspect_of_find ((hfit.frame.keeps.names h.names).find hn (hfit.known _ _ hv))
      cases x with
      | file mode old =>
        refine holding_ask (c := .read p) (.ok old) (fun fs hfit => ?_) ⟨.taken hn, rfl⟩
        exact congrArg (·, fs) ((hfit.frame.keeps.names h.names).read_file hn (hfit.known _ _ hv))
      | directory mode => exact ⟨.obstructed rfl (by simp [Node.kind]), rfl⟩
      | symlink target => exact ⟨.obstructed rfl (by simp [Node.kind]), rfl⟩
      | special mode => exact ⟨.obstructed rfl (by simp [Node.kind]), rfl⟩
  · refine hlook (.error (if n.contains 0 then .nulByte else .nameTooLong)) (fun fs hfit => ?_) ?_
    · exact inspect_of_find_error ((hfit.frame.keeps.names h.names).find_refused hn)
    · cases n.contains 0 <;> exact ⟨.refused rfl hn, rfl⟩

theorem confirmParent_foretold (h : start.Names p d n) (hreal : real.IsProper) (hin : real <+: d)
    (entry : String) :
    (confirmParent real.toPath p entry).Foretold (holding start within)
      (fun result k' => result = .ok () ∧ k' = k) k := by
  obtain ⟨r, hproper, rfl, hd⟩ := h
  rw [confirmParent, RealPath.parent?_toPath hproper]
  have hdproper := isProper_of_resolve (RealPath.isProper_append.1 hproper).1 hd.1
  have hwithin : d.toPath.isWithin real.toPath = true := (RealPath.isWithin_toPath hreal hdproper).2 hin
  refine holding_ask (c := .realPath r.toPath) (.ok d.toPath) ?_ ?_
  · exact fun fs hfit => congrArg (·, fs) (hfit.frame.keeps.leadsTo hd).realPath
  · show (Program.bind (if d.toPath.isWithin real.toPath then _ else _) _).Foretold _ _ _
    rw [hwithin]
    exact ⟨rfl, rfl⟩

/-- **What bringing a file entry to its destination does**, exactly: only the destination changes, and
    `FileSettled` says how. -/
theorem writeFile_foretold (h : Writable start k p d n) (hreal : real.IsProper) (hin : real <+: d)
    (hv : k (d ++ [n]) = some v) (options : ExtractOptions) (e : Entry) :
    (writeFile options real.toPath p e content).Foretold (holding start within)
      (fun result k' => ∃ v', FileSettled options e n content (k.Stageable d n) v result v' ∧
        k' = k.set (d ++ [n]) v') k := by
  have hkept : k = k.set (d ++ [n]) v := (set_eq_self hv).symm
  rw [writeFile]
  refine (confirmParent_foretold h.names hreal hin e.path).bind ?_
  rintro _ _ ⟨rfl, rfl⟩
  refine (existingDigest_foretold h hv).bind ?_
  rintro found _ ⟨hlooked, rfl⟩
  cases hlooked with
  | refused hkind hn => exact ⟨v, .refused hkind hn, hkept⟩
  | obstructed hkind hx => exact ⟨_, .obstructed hkind hx, hkept⟩
  | free hn =>
    refine (writeVerified_foretold h hn hv nofun e.digest ⟨e.mode, options.sync⟩).bind ?_
    intro result k₁ hsettled
    cases hsettled with
    | crowded hkind hstage => exact ⟨_, .crowded hkind hstage, hkept⟩
    | corrupt hkind hstage hdigest => exact ⟨_, .corrupt hkind hstage hdigest, hkept⟩
    | written hstage hdigest => exact ⟨_, .created hn hstage hdigest, rfl⟩
  | @taken mode old hn =>
    cases hleave : options.overwrite.leave? (Digest.of old == e.digest) with
    | some o =>
      simp only [hleave]
      exact ⟨_, .left hn hleave, hkept⟩
    | none =>
      simp only [hleave]
      have hregular : ∀ x, some (Node.file mode old) = some x → x.kind = .file := by
        rintro _ ⟨⟩
        rfl
      refine (writeVerified_foretold h hn hv hregular e.digest ⟨e.mode, options.sync⟩).bind ?_
      intro result k₁ hsettled
      cases hsettled with
      | crowded hkind hstage => exact ⟨_, .crowded hkind hstage, hkept⟩
      | corrupt hkind hstage hdigest => exact ⟨_, .corrupt hkind hstage hdigest, hkept⟩
      | written hstage hdigest => exact ⟨_, .overwritten hn hdigest hleave, rfl⟩

/-! ## A file without a directory -/

theorem existingDigest_astray (hproper : RealPath.IsProper (r ++ [n])) (h : ¬∃ d, fs.LeadsTo r.toPath d) :
    (existingDigest (RealPath.toPath (r ++ [n]))).Obeys asking
      (fun result _ fs' => fs' = fs ∧ ∀ old, result ≠ .ok (some old)) () fs := by
  rw [existingDigest]
  refine ask_inspectLink letsAsk_asking ?_
  intro fs' hsame _
  obtain rfl : fs' = fs := hsame
  cases hinspect : fs'.inspect false (RealPath.toPath (r ++ [n])) with
  | error e => cases e <;> exact ⟨rfl, nofun⟩
  | ok info =>
    obtain ⟨q, x, hfind, -⟩ := inspect_eq_ok hinspect
    exact absurd (leadsTo_of_find_entry hproper hfind) h

theorem writeVerified_astray (hproper : RealPath.IsProper (r ++ [n])) (h : ¬∃ d, fs.LeadsTo r.toPath d)
    (expected : Digest) (options : WriteOptions) :
    (writeVerified (RealPath.toPath (r ++ [n])) content expected options).Obeys asking
      (fun result _ fs' => fs' = fs ∧ ∃ err, result = .error err) () fs := by
  have hdirectory : StagedFile.directoryOf (RealPath.toPath (r ++ [n])) = r.toPath := by
    rw [StagedFile.directoryOf, RealPath.parent?_toPath hproper]
    rfl
  rw [writeVerified, StagedFile.create, RealPath.fileName?_toPath hproper, hdirectory]
  obtain ⟨fault, hcreate⟩ := createTemporary_astray (utf8 (lossy n)) h
  have hanswer : fs.answer (.createTemporary r.toPath (utf8 (lossy n))) = (.error fault, fs) := by
    rw [answer, hcreate]
  refine Program.obeys_alone_call (I := Files) (c := FileCall.createTemporary r.toPath (utf8 (lossy n))) ?_ ?_
  · rw [hanswer]
  · rw [hanswer]
    exact ⟨rfl, _, rfl⟩

/-- **A file entry whose directory is not there fails**, and nothing changes. -/
theorem writeFile_astray (hreal : real.IsProper) (hproper : RealPath.IsProper (r ++ [n]))
    (h : ¬∃ d, fs.LeadsTo r.toPath d) (options : ExtractOptions) (e : Entry) (content : Bytes) :
    ∃ err, (writeFile options real.toPath (RealPath.toPath (r ++ [n])) e content).run answer fs =
      (.error err, fs) := by
  suffices hobeys : (writeFile options real.toPath (RealPath.toPath (r ++ [n])) e content).Obeys asking
      (fun result _ fs' => fs' = fs ∧ ∃ err, result = .error err) () fs by
    obtain ⟨-, ⟨hfs, err, hresult⟩, -⟩ := hobeys.run trivial
    exact ⟨err, Prod.ext hresult hfs⟩
  rw [writeFile]
  refine (confirmParent_obeys letsAsk_asking hreal hproper).bind ?_
  rintro (err | ⟨⟩) ⟨⟩ fs₁ ⟨-, rfl, -, -⟩
  · exact ⟨rfl, err, rfl⟩
  · refine (existingDigest_astray hproper h).bind ?_
    rintro (err | found) ⟨⟩ fs₂ ⟨rfl, hfound⟩
    · exact ⟨rfl, err, rfl⟩
    · cases found with
      | some old => exact absurd rfl (hfound old)
      | none =>
        refine (writeVerified_astray hproper h e.digest ⟨e.mode, options.sync⟩).bind ?_
        rintro _ ⟨⟩ fs₃ ⟨rfl, err, rfl⟩
        exact ⟨rfl, err, rfl⟩

end TreeImage
