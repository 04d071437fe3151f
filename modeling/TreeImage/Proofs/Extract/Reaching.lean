import TreeImage.Proofs.Extract.Files
import TreeImage.Proofs.Extract.Selection
import TreeImage.Proofs.Extract.VerifiedWrites
import TreeImage.Proofs.Program.Dialogue

set_option autoImplicit false

/-! # Where calls go

Bringing an entry to its destination takes calls that name the destination, the directory it lies in, or a temporary
file there, and nothing else. So none of them goes into a directory that the entry does not lie in
(`createDirectory_avoids`, `writeFile_asks`). -/

namespace TreeImage

open FileSystem

/-- The path names something in the directory `p`. -/
def Path.liesIn (q p : Path) : Bool := q.isWithin p && !q.sameAs p

/-- The call names something in the directory `p`, or makes a file there. A file that is open was made before. -/
def FileCall.goesInto (p : Path) : FileCall → Bool
  | .realPath q => q.liesIn p
  | .inspect _ q => q.liesIn p
  | .read q => q.liesIn p
  | .makeDirectory q => q.liesIn p
  | .createTemporary directory _ => directory.isWithin p
  | .writeOpen _ _ => false
  | .flush _ => false
  | .setMode q _ => q.liesIn p
  | .rename q q' => q.liesIn p || q'.liesIn p
  | .remove q => q.liesIn p

variable {options : ExtractOptions} {e : Entry} {content : Bytes} {expected : Digest} {write : WriteOptions}
  {d r names : RealPath} {n m : Name} {p q realRoot : Path} {entry : String} {s : StagedFile} {α : Type}

/-! ## Paths -/

theorem liesIn_toPath (hd : d.IsProper) (hr : r.IsProper) : r.toPath.liesIn d.toPath = true ↔ d <+: r ∧ r ≠ d := by
  rw [Path.liesIn, Bool.and_eq_true, RealPath.isWithin_toPath hd hr, Bool.not_eq_true', ← Bool.not_eq_true,
    RealPath.sameAs_toPath hr hd]

/-- What is on the way to a path has its first names. -/
theorem exists_entryNames_below {front path : String} (h : Manifest.IsOnTheWay front path) :
    ∃ back, back ≠ [] ∧ entryNames path = entryNames front ++ back := by
  obtain ⟨-, back, hback⟩ := h
  refine ⟨(segments '/' back).map segmentName, mt List.map_eq_nil_iff.1 (segments_ne_nil '/' back), ?_⟩
  rw [entryNames, pathSegments, hback, segments_append, List.map_append]
  rfl

theorem isOnTheWay_of_entryNames {front path : String} (hne : front ≠ "") (hpath : entryNames path = r ++ [n])
    (h : entryNames front <+: r) : Manifest.IsOnTheWay front path := by
  induction hlength : path.length using Nat.strong_induction_on generalizing path r n with
  | _ length ih =>
    cases hparent : parentPath? path with
    | none =>
      have hlast : [] ++ [utf8 (lastSegment path)] = r ++ [n] :=
        (entryNames_of_parentPath?_eq_none hparent).symm.trans hpath
      obtain ⟨rfl, -⟩ := List.append_inj' hlast rfl
      exact absurd (List.prefix_nil.1 h) (entryNames_ne_nil front)
    | some parent =>
      have hlast := (entryNames_of_parentPath? hparent).symm.trans hpath
      obtain ⟨rfl, -⟩ := List.append_inj' hlast rfl
      refine Manifest.isOnTheWay_iff.2 ⟨parent, hparent, ?_⟩
      obtain ⟨r', hr'⟩ := exists_entryNames_eq_append parent
      rw [hr'] at h
      rcases List.prefix_concat_iff.1 h with hsame | hfront
      · have hfront : front = parent := entryNames_injective (hsame.trans hr'.symm)
        exact .inl ⟨hfront, hfront ▸ hne⟩
      · exact .inr (ih _ (hlength ▸ Manifest.length_lt_of_parentPath? hparent) hr' hfront rfl)

/-- The destination of an entry is a place below the root, apart from the places of what is not on the way to it. -/
theorem exists_place (hnames : names.IsProper) {path : String} (h : sanitize names.toPath path = .ok q) :
    ∃ r n, RealPath.IsProper (r ++ [n]) ∧ q = RealPath.toPath (r ++ [n]) ∧
      ∀ front, front ≠ "" → ¬Manifest.IsOnTheWay front path → ¬names ++ entryNames front <+: r := by
  obtain ⟨hproper, rfl⟩ := sanitize_eq_ok hnames h
  obtain ⟨r, hr⟩ := exists_entryNames_eq_append path
  refine ⟨names ++ r, utf8 (lastSegment path), ?_, ?_, ?_⟩
  · rw [List.append_assoc, ← hr]
    exact RealPath.isProper_append.2 ⟨hnames, hproper⟩
  · rw [List.append_assoc, hr]
  · intro front hne hnot hin
    exact hnot (isOnTheWay_of_entryNames hne hr ((List.prefix_append_right_inj names).1 hin))

theorem liesIn_of_isOnTheWay (hnames : names.IsProper) {front path : String} (hp : sanitize names.toPath front = .ok p)
    (hq : sanitize names.toPath path = .ok q) (h : Manifest.IsOnTheWay front path) : q.liesIn p = true := by
  obtain ⟨hfront, rfl⟩ := sanitize_eq_ok hnames hp
  obtain ⟨hpath, rfl⟩ := sanitize_eq_ok hnames hq
  obtain ⟨back, hne, hback⟩ := exists_entryNames_below h
  rw [liesIn_toPath (RealPath.isProper_append.2 ⟨hnames, hfront⟩) (RealPath.isProper_append.2 ⟨hnames, hpath⟩), hback,
    ← List.append_assoc]
  exact ⟨List.prefix_append _ _, fun heq => hne (List.append_right_eq_self.1 heq)⟩

/-- The calls that do not go into a directory. -/
abbrev FileCall.Avoids (p : Path) (c : FileCall) : Prop := c.goesInto p = false

/-- What asks for nothing in a directory. -/
abbrev Avoiding (p : Path) (prog : Program Files α) (told : α → Prop) : Prop :=
  prog.Asks FileSystem.answer (FileCall.Avoids p) told

section Apart

variable (hd : d.IsProper) (hproper : RealPath.IsProper (r ++ [n])) (hapart : ¬d <+: r)

include hd hproper hapart

theorem isWithin_directory : r.toPath.isWithin d.toPath = false := by
  rw [← Bool.not_eq_true, RealPath.isWithin_toPath hd (RealPath.isProper_append.1 hproper).1]
  exact hapart

theorem liesIn_directory : r.toPath.liesIn d.toPath = false := by
  rw [Path.liesIn, isWithin_directory hd hproper hapart, Bool.false_and]

theorem liesIn_beside (hm : IsProperName m) : (RealPath.toPath (r ++ [m])).liesIn d.toPath = false := by
  have hr := (RealPath.isProper_append.1 hproper).1
  rw [← Bool.not_eq_true, liesIn_toPath hd (RealPath.isProper_append.2 ⟨hr, RealPath.isProper_singleton.2 hm⟩)]
  rintro ⟨hin, hne⟩
  exact (List.prefix_concat_iff.1 hin).elim (fun heq => hne heq.symm) hapart

theorem liesIn_destination : (RealPath.toPath (r ++ [n])).liesIn d.toPath = false :=
  liesIn_beside hd hproper hapart (hproper n (List.mem_append_right _ (List.mem_singleton_self n)))

end Apart

/-! ## Confirming -/

section Calls

variable {sort : FileCall → Prop}

theorem confirmWithin_asks (hq : sort (.realPath q)) :
    (confirmWithin realRoot q entry).Asks FileSystem.answer sort fun _ => True := by
  refine (Program.asks_call hq).bind fun result _ => ?_
  cases result with
  | error e => trivial
  | ok real =>
    show Program.Asks _ _ _ (if real.isWithin realRoot then _ else _)
    split <;> trivial

theorem confirmParent_asks (hq : ∀ parent, q.parent? = some parent → sort (.realPath parent)) :
    (confirmParent realRoot q entry).Asks FileSystem.answer sort fun _ => True := by
  rw [confirmParent]
  split
  · trivial
  · next parent hparent => exact (confirmWithin_asks (hq parent hparent)).bind fun _ _ => trivial

/-! ## Directories -/

theorem isDirectory_asks (hq : sort (.inspect true q)) :
    (Files.isDirectory q).Asks FileSystem.answer sort fun _ => True := by
  refine (Program.asks_call hq).bind fun result _ => ?_
  cases result <;> trivial

theorem applyMode_asks {mode : UInt32} (hq : sort (.setMode q mode)) :
    (applyMode q mode).Asks FileSystem.answer sort fun _ => True := by
  refine (Program.asks_call hq).bind fun result _ => ?_
  cases result <;> trivial

theorem applyMode?_asks {mode : Option UInt32} (hq : ∀ m, mode = some m → sort (.setMode q m)) :
    (applyMode? q mode).Asks FileSystem.answer sort fun _ => True := by
  cases mode with
  | none => trivial
  | some mode => exact applyMode_asks (hq mode rfl)

theorem ensureDirectory_asks {mode : Option UInt32} (hlook : ∀ follow, sort (.inspect follow q))
    (hmake : sort (.makeDirectory q)) (hmode : ∀ m, mode = some m → sort (.setMode q m)) :
    (ensureDirectory q mode).Asks FileSystem.answer sort fun _ => True := by
  refine (Program.asks_call (hlook false)).bind fun result _ => ?_
  rcases result with refusal | info
  · cases refusal with
    | notFound =>
      refine (Program.asks_call hmake).bind fun result _ => ?_
      rcases result with refusal | ⟨⟩
      · cases refusal with
        | alreadyExists =>
          refine (isDirectory_asks (hlook true)).bind fun found _ => ?_
          cases found <;> trivial
        | _ => trivial
      · refine (applyMode?_asks hmode).bind fun result _ => ?_
        cases result <;> trivial
    | _ => trivial
  · obtain ⟨kind, mode, size⟩ := info
    cases kind with
    | symlink =>
      refine (isDirectory_asks (hlook true)).bind fun found _ => ?_
      cases found <;> trivial
    | _ => trivial

/-- Bringing a directory to its destination takes a look at the directory that it lies in, looks at the destination, and
    making it. -/
theorem createDirectory_asks (hparent : ∀ parent, q.parent? = some parent → sort (.realPath parent))
    (hreal : sort (.realPath q)) (hlook : ∀ follow, sort (.inspect follow q)) (hmake : sort (.makeDirectory q)) :
    (createDirectory realRoot q entry).Asks FileSystem.answer sort fun _ => True := by
  refine (confirmParent_asks hparent).bind fun confirmed _ => ?_
  cases confirmed with
  | error err => trivial
  | ok _ =>
    have hmode : ∀ m, (none : Option UInt32) = some m → sort (.setMode q m) := nofun
    refine (ensureDirectory_asks hlook hmake hmode).bind fun state _ => ?_
    cases state with
    | error err => trivial
    | ok state => exact (confirmWithin_asks hreal).bind fun _ _ => trivial

/-! ## The root -/

/-- Preparing the root takes looks at what is on the way to it, and making directories there. -/
theorem prepareRoot_asks (hnames : names.IsProper) (hlook : ∀ k, sort (.inspect true (RealPath.toPath (names.take k))))
    (hmake : ∀ k, sort (.makeDirectory (RealPath.toPath (names.take k)))) (hreal : sort (.realPath names.toPath)) :
    (prepareRoot names.toPath).Asks FileSystem.answer sort fun _ => True := by
  have hroot : sort (.inspect true names.toPath) := by
    have hall := hlook names.length
    rwa [List.take_length] at hall
  have haccept : ∀ (k : Nat) (refusal : Refusal),
      (do if ← Files.isDirectory (RealPath.toPath (names.take k)) then return .ok () else return .error refusal :
        Program Files (Except Refusal Unit)).Asks FileSystem.answer sort fun _ => True := by
    intro k refusal
    refine (isDirectory_asks (hlook k)).bind fun found _ => ?_
    cases found <;> trivial
  have hmakes : ∀ k, (makeAlong names k).Asks FileSystem.answer sort fun _ => True := by
    intro k
    induction k with
    | zero => trivial
    | succ k ih =>
      rw [makeAlong]
      refine (Program.asks_call (hmake (k + 1))).bind fun result _ => ?_
      rcases result with refusal | ⟨⟩
      · cases refusal with
        | notFound =>
          refine ih.bind fun result _ => ?_
          rcases result with refusal | ⟨⟩
          · trivial
          · refine (Program.asks_call (hmake (k + 1))).bind fun result _ => ?_
            rcases result with refusal | ⟨⟩
            · exact haccept (k + 1) refusal
            · trivial
        | _ => exact haccept (k + 1) _
      · trivial
  have hsettle : (do return (← Files.realPath names.toPath).mapError (.target names.toPath) :
      Program Files (Except ExtractError Path)).Asks FileSystem.answer sort fun _ => True :=
    (Program.asks_call hreal).bind fun _ _ => trivial
  refine (Program.asks_call hroot).bind fun result _ => ?_
  rcases result with refusal | info
  · cases refusal with
    | notFound =>
      rw [RealPath.normalNames_toPath hnames]
      refine (hmakes names.length).bind fun result _ => ?_
      rcases result with refusal | ⟨⟩
      · trivial
      · exact hsettle
    | _ => trivial
  · show Program.Asks _ _ _ (if info.isDirectory then _ else _)
    split
    · exact hsettle
    · trivial

end Calls

/-! ## What does not go into a directory -/

/-- Bringing a directory to its destination takes no calls into directories that it does not lie in. -/
theorem createDirectory_avoids (hd : d.IsProper) (hproper : RealPath.IsProper (r ++ [n])) (hapart : ¬d <+: r) :
    Avoiding d.toPath (createDirectory realRoot (RealPath.toPath (r ++ [n])) entry) fun _ => True := by
  have hdestination := liesIn_destination hd hproper hapart
  refine createDirectory_asks ?_ hdestination (fun _ => hdestination) hdestination
  intro parent hparent
  cases (RealPath.parent?_toPath hproper).symm.trans hparent
  exact liesIn_directory hd hproper hapart

/-- Preparing the root takes no calls into directories below it. -/
theorem prepareRoot_avoids (hd : d.IsProper) (hnames : names.IsProper) (hbelow : names.length < d.length) :
    Avoiding d.toPath (prepareRoot names.toPath) fun _ => True := by
  have htake : ∀ k, (RealPath.toPath (names.take k)).liesIn d.toPath = false := by
    intro k
    rw [← Bool.not_eq_true, liesIn_toPath hd (hnames.take k)]
    rintro ⟨hin, -⟩
    have hlength := hin.length_le
    rw [List.length_take] at hlength
    omega
  have hroot : names.toPath.liesIn d.toPath = false := by
    have hall := htake names.length
    rwa [List.take_length] at hall
  exact prepareRoot_asks hnames htake htake hroot

/-! ## Files -/

theorem existingDigest_asks (hq : q.liesIn p = false) : Avoiding p (existingDigest q) fun _ => True := by
  refine (Program.asks_call (show FileCall.Avoids p (.inspect false q) from hq)).bind fun result _ => ?_
  rcases result with refusal | info
  · cases refusal <;> trivial
  · obtain ⟨kind, mode, size⟩ := info
    cases kind with
    | file =>
      refine (Program.asks_call (show FileCall.Avoids p (.read q) from hq)).bind fun result _ => ?_
      cases result <;> trivial
    | _ => trivial

namespace StagedFile

/-- The staged file and its destination do not lie in the directory. -/
def Avoids (p : Path) (s : StagedFile) : Prop := s.path.liesIn p = false ∧ s.destination.liesIn p = false

theorem discard_asks (h : s.Avoids p) : Avoiding p s.discard fun _ => True :=
  (Program.asks_call (show FileCall.Avoids p (.remove s.path) from h.1)).bind fun _ _ => trivial

theorem reopen_asks (h : s.Avoids p) : Avoiding p s.reopen fun _ => True := by
  refine (Program.asks_call (show FileCall.Avoids p (.read s.path) from h.1)).bind fun result _ => ?_
  cases result <;> trivial

theorem commit_asks (h : s.Avoids p) : Avoiding p s.commit fun _ => True := by
  have hrename : FileCall.Avoids p (.rename s.path s.destination) := Bool.or_eq_false_iff.2 h
  refine (Program.asks_call hrename).bind fun result _ => ?_
  cases result with
  | ok _ => trivial
  | error e => exact (discard_asks h).bind fun _ _ => trivial

theorem create_asks (hd : d.IsProper) (hproper : RealPath.IsProper (r ++ [n])) (hapart : ¬d <+: r) :
    Avoiding d.toPath (create (RealPath.toPath (r ++ [n])) content write)
      fun result => ∀ s, result = .ok s → s.Avoids d.toPath := by
  have hr := (RealPath.isProper_append.1 hproper).1
  have hname := RealPath.fileName?_toPath hproper
  rw [create, hname, directoryOf_toPath hproper]
  have hdirectory : FileCall.Avoids d.toPath (.createTemporary r.toPath (utf8 (lossy n))) :=
    isWithin_directory hd hproper hapart
  refine ⟨hdirectory, fun fs => ?_⟩
  rcases hreply : (FileSystem.answer (.createTemporary r.toPath (utf8 (lossy n))) fs).1 with fault | ⟨path, place⟩
  · rintro _ ⟨⟩
  · have hpath : path.liesIn d.toPath = false := by
      cases hcreate : fs.createTemporary r.toPath (utf8 (lossy n)) with
      | error fault => simp [FileSystem.answer, hcreate] at hreply
      | ok made =>
        obtain ⟨⟨path', place'⟩, fs'⟩ := made
        obtain ⟨_, k, -, -, rfl, -⟩ := createTemporary_eq_ok hcreate
        have hm := isProperName_temporaryName (n := k) (slash_not_mem_of_fileName? hname)
        simp only [FileSystem.answer, hcreate] at hreply
        obtain ⟨hpath, -⟩ := Prod.mk.inj (Except.ok.inj hreply)
        rw [← hpath, absolute, RealPath.isAbsolute_toPath, if_pos rfl, RealPath.push_toPath hr hm]
        exact liesIn_beside hd hproper hapart hm
    have hstaged : StagedFile.Avoids d.toPath ⟨path, place, RealPath.toPath (r ++ [n])⟩ :=
      ⟨hpath, liesIn_destination hd hproper hapart⟩
    refine (Program.asks_call (show FileCall.Avoids d.toPath (.writeOpen place content) from rfl)).bind fun _ _ => ?_
    refine (applyMode?_asks fun _ _ => hpath).bind fun result _ => ?_
    cases result with
    | error e =>
      refine (discard_asks hstaged).bind fun _ _ => ?_
      rintro _ ⟨⟩
    | ok _ =>
      have hdone : ∀ s, (Except.ok ⟨path, place, RealPath.toPath (r ++ [n])⟩ : Except FsError StagedFile) = .ok s →
          s.Avoids d.toPath := by
        rintro _ ⟨⟩
        exact hstaged
      show Program.Asks _ _ _ (if write.sync then _ else _)
      split
      · exact (Program.asks_call (show FileCall.Avoids d.toPath (.flush place) from rfl)).bind fun _ _ => hdone
      · exact hdone

end StagedFile

theorem writeVerified_asks (hd : d.IsProper) (hproper : RealPath.IsProper (r ++ [n])) (hapart : ¬d <+: r) :
    Avoiding d.toPath (writeVerified (RealPath.toPath (r ++ [n])) content expected write) fun _ => True := by
  refine (StagedFile.create_asks hd hproper hapart).bind fun created hcreated => ?_
  cases created with
  | error e => trivial
  | ok staged =>
    have hstaged := hcreated staged rfl
    refine (StagedFile.reopen_asks hstaged).bind fun written _ => ?_
    cases written with
    | error e => exact (StagedFile.discard_asks hstaged).bind fun _ _ => trivial
    | ok written =>
      show Program.Asks _ _ _ (if Digest.of written ≠ expected then _ else _)
      split
      · exact (StagedFile.discard_asks hstaged).bind fun _ _ => trivial
      · refine (StagedFile.commit_asks hstaged).bind fun result _ => ?_
        cases result <;> trivial

/-- Bringing a file to its destination takes no calls into directories that it does not lie in. -/
theorem writeFile_asks (hd : d.IsProper) (hproper : RealPath.IsProper (r ++ [n])) (hapart : ¬d <+: r) :
    Avoiding d.toPath (writeFile options realRoot (RealPath.toPath (r ++ [n])) e content) fun _ => True := by
  have hparent : ∀ parent, (RealPath.toPath (r ++ [n])).parent? = some parent → parent.liesIn d.toPath = false := by
    intro parent hparent
    cases (RealPath.parent?_toPath hproper).symm.trans hparent
    exact liesIn_directory hd hproper hapart
  refine (confirmParent_asks hparent).bind fun confirmed _ => ?_
  cases confirmed with
  | error err => trivial
  | ok _ =>
    refine (existingDigest_asks (liesIn_destination hd hproper hapart)).bind fun existing _ => ?_
    rcases existing with err | _ | digest
    · trivial
    · exact (writeVerified_asks hd hproper hapart).bind fun _ _ => trivial
    · dsimp only
      split
      · trivial
      · exact (writeVerified_asks hd hproper hapart).bind fun _ _ => trivial

end TreeImage
