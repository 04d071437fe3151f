import TreeImage.FileSystem.Access
import TreeImage.Proofs.FileSystem.Places
import TreeImage.Proofs.FileSystem.Temporary

set_option autoImplicit false

/-! # What calls change

Every call changes the node at one place, or takes one away; a rename does both. `AgreeOutside` says at
which places two file systems may differ, and `SameFrame` that they differ in regular files only. -/

namespace TreeImage

namespace FileSystem

variable {fs fs' fs'' : FileSystem} {p p' : Path} {q q' : RealPath} {x : Node}

/-! ## Places where file systems differ -/

/-- Outside the places in `S` nothing differs. -/
structure AgreeOutside (S : RealPath → Prop) (fs fs' : FileSystem) : Prop where
  cwd : fs'.cwd = fs.cwd
  executable : fs'.executable = fs.executable
  get? : ∀ q, ¬S q → fs'.get? q = fs.get? q

theorem AgreeOutside.refl (S : RealPath → Prop) (fs : FileSystem) : AgreeOutside S fs fs :=
  ⟨rfl, rfl, fun _ _ => rfl⟩

theorem AgreeOutside.imp {S T : RealPath → Prop} (h : AgreeOutside S fs fs') (hST : ∀ q, S q → T q) :
    AgreeOutside T fs fs' :=
  ⟨h.cwd, h.executable, fun q hq => h.get? q fun hS => hq (hST q hS)⟩

theorem AgreeOutside.trans {S : RealPath → Prop} (h : AgreeOutside S fs fs')
    (h' : AgreeOutside S fs' fs'') : AgreeOutside S fs fs'' :=
  ⟨h'.cwd.trans h.cwd, h'.executable.trans h.executable,
    fun q hq => (h'.get? q hq).trans (h.get? q hq)⟩

theorem AgreeOutside.of_changed {S : RealPath → Prop} (h : AgreeOutside S fs fs')
    (hq : fs'.get? q ≠ fs.get? q) : S q := by
  by_contra hS
  exact hq (h.get? q hS)

theorem agreeOutside_put (fs : FileSystem) (q : RealPath) (x : Node) :
    AgreeOutside (· = q) fs (fs.put q x) :=
  ⟨rfl, rfl, fun _ hq => get?_put_of_ne hq x⟩

/-- A node in the place of neither a directory nor a link takes none away. -/
theorem keeps_put_over (hdir : fs.isDirectoryAt q = false)
    (hlink : ∀ target, fs.get? q ≠ some (.symlink target)) (x : Node) : Keeps fs (fs.put q x) := by
  refine ⟨rfl, ?_, ?_⟩
  · intro q' hq'
    have hne : q' ≠ q := by
      rintro rfl
      rw [hdir] at hq'
      cases hq'
    rwa [isDirectoryAt, get?_put_of_ne hne]
  · intro q' target hget
    have hne : q' ≠ q := by
      rintro rfl
      exact hlink target hget
    rw [get?_put_of_ne hne, hget]

/-- A new node takes nothing away. -/
theorem keeps_put_new (hq : fs.get? q = none) (x : Node) : Keeps fs (fs.put q x) :=
  keeps_put_over (by rw [isDirectoryAt, hq]; rfl) (fun _ hlink => nomatch hq.symm.trans hlink) x

/-- Directories stay directories under another mode, and links do not have one. -/
theorem keeps_put_withMode (hq : fs.get? q = some x) (mode : UInt32) :
    Keeps fs (fs.put q (x.withMode mode)) := by
  refine ⟨rfl, ?_, ?_⟩
  · intro q' hq'
    obtain ⟨m, hget⟩ := isDirectoryAt_iff.1 hq'
    rw [isDirectoryAt_iff, get?_put]
    split
    · next h =>
      subst h
      obtain rfl := Option.some.inj (hq.symm.trans hget)
      exact ⟨mode, rfl⟩
    · exact ⟨m, hget⟩
  · intro q' target hq'
    rw [get?_put]
    split
    · next h =>
      subst h
      obtain rfl := Option.some.inj (hq.symm.trans hq')
      rfl
    · exact hq'

/-! ## The frame -/

/-- What stands at a place, if that is no regular file. -/
def frame (fs : FileSystem) (q : RealPath) : Option Node := (fs.get? q).filter (·.kind != .file)

/-- The file systems differ in regular files only. -/
structure SameFrame (fs fs' : FileSystem) : Prop where
  cwd : fs'.cwd = fs.cwd
  executable : fs'.executable = fs.executable
  frame : ∀ q, fs'.frame q = fs.frame q

theorem SameFrame.refl (fs : FileSystem) : SameFrame fs fs := ⟨rfl, rfl, fun _ => rfl⟩

theorem SameFrame.symm (h : SameFrame fs fs') : SameFrame fs' fs :=
  ⟨h.cwd.symm, h.executable.symm, fun q => (h.frame q).symm⟩

theorem SameFrame.trans (h : SameFrame fs fs') (h' : SameFrame fs' fs'') : SameFrame fs fs'' :=
  ⟨h'.cwd.trans h.cwd, h'.executable.trans h.executable, fun q => (h'.frame q).trans (h.frame q)⟩

theorem frame_eq_some : fs.frame q = some x ↔ fs.get? q = some x ∧ x.kind ≠ .file := by
  rw [frame, Option.filter_eq_some_iff, bne_iff_ne]

/-- Nothing of the frame stands at a place that is free or taken by a regular file. -/
theorem frame_eq_none : fs.frame q = none ↔
    fs.get? q = none ∨ ∃ mode content, fs.get? q = some (.file mode content) := by
  rw [frame]
  cases fs.get? q with
  | none => simp
  | some x => cases x <;> simp [Option.filter, Node.kind]

theorem frame_put_file (fs : FileSystem) (q q' : RealPath) (mode : UInt32) (content : Bytes) :
    (fs.put q (.file mode content)).frame q' = if q' = q then none else fs.frame q' := by
  rw [frame, get?_put]
  split
  · rfl
  · rfl

theorem frame_erase (fs : FileSystem) (q q' : RealPath) :
    (fs.erase q).frame q' = if q' = q then none else fs.frame q' := by
  rw [frame, get?_erase]
  split
  · rfl
  · rfl

theorem sameFrame_put_file (hq : fs.frame q = none) (mode : UInt32) (content : Bytes) :
    SameFrame fs (fs.put q (.file mode content)) := by
  refine ⟨rfl, rfl, ?_⟩
  intro q'
  rw [frame_put_file]
  split
  · next h => rw [h, hq]
  · rfl

theorem sameFrame_erase (hq : fs.frame q = none) : SameFrame fs (fs.erase q) := by
  refine ⟨rfl, rfl, ?_⟩
  intro q'
  rw [frame_erase]
  split
  · next h => rw [h, hq]
  · rfl

/-- Directories and links are part of the frame. -/
theorem SameFrame.keeps (h : SameFrame fs fs') : Keeps fs fs' := by
  refine ⟨h.cwd, ?_, ?_⟩
  · intro q hq
    obtain ⟨m, hget⟩ := isDirectoryAt_iff.1 hq
    have hframe := (h.frame q).trans (frame_eq_some.2 ⟨hget, fun h => nomatch h⟩)
    exact isDirectoryAt_iff.2 ⟨m, (frame_eq_some.1 hframe).1⟩
  · intro q target hq
    have hframe := (h.frame q).trans (frame_eq_some.2 ⟨hq, fun h => nomatch h⟩)
    exact (frame_eq_some.1 hframe).1

/-- Outside the frame, a path that names an entry finds a regular file, if anything. -/
theorem Names.find_regular {d : RealPath} {n : Name} (h : fs.Names p d n)
    (hframe : fs.frame (d ++ [n]) = none) (hfind : fs.find true p = .ok (q, x)) :
    q = d ++ [n] ∧ ∃ mode content, x = .file mode content ∧ fs.get? q = some (.file mode content) := by
  have hlink : ∀ target, fs.get? (d ++ [n]) ≠ some (.symlink target) := by
    intro target hget
    cases hframe.symm.trans (frame_eq_some.2 ⟨hget, fun h => nomatch h⟩)
  rw [h.find_follow hlink] at hfind
  obtain ⟨rfl, hget⟩ := h.find_eq_ok hfind
  refine ⟨rfl, ?_⟩
  rcases frame_eq_none.1 hframe with hnone | ⟨mode, content, hfile⟩
  · cases hnone.symm.trans hget
  · exact ⟨mode, content, Option.some.inj (hget.symm.trans hfile), hfile⟩

/-! ## Calls -/

theorem makeDirectory_eq_ok (h : fs.makeDirectory p = .ok fs') :
    ∃ s mode, fs.spot p = .ok s ∧ fs.get? s.place = none ∧ fs' = fs.put s.place (.directory mode) := by
  rw [makeDirectory] at h
  split at h
  · cases h
  · next s hs =>
    split at h
    · cases h
    · split at h
      · cases h
      · next hget =>
        cases h
        exact ⟨s, _, hs, hget, rfl⟩

/-- A directory that is made is where its path leads from then on. -/
theorem makeDirectory_entry_eq_ok {r : RealPath} {n : Name} (hproper : RealPath.IsProper (r ++ [n]))
    (h : fs.makeDirectory (RealPath.toPath (r ++ [n])) = .ok fs') :
    ∃ d mode, fs.LeadsTo r.toPath d ∧ fs.get? (d ++ [n]) = none ∧
      fs' = fs.put (d ++ [n]) (.directory mode) ∧
      fs'.LeadsTo (RealPath.toPath (r ++ [n])) (d ++ [n]) := by
  obtain ⟨s, mode, hs, hnone, rfl⟩ := makeDirectory_eq_ok h
  have hd := leadsTo_of_spot_entry hproper hs
  obtain ⟨hnul, hshort, hspot⟩ := spot_entry_eq_ok hproper hd hs
  have hplace : s.place = s.directory ++ [n] := by
    rw [Spot.place, hspot]
  rw [hplace] at hnone ⊢
  refine ⟨s.directory, mode, hd, hnone, rfl, ?_⟩
  refine leadsTo_entry hproper ((keeps_put_new hnone _).leadsTo hd) hnul hshort ?_
  exact isDirectoryAt_iff.2 ⟨mode, get?_put_self ..⟩

/-- A real path is the spelling of the place that a path leads to. -/
theorem realPath_eq_ok {real : Path} (h : fs.realPath p = .ok real) :
    ∃ q, fs.resolve true p = .ok q ∧ real = q.toPath := by
  rw [realPath] at h
  cases hfind : fs.find true p with
  | error e =>
    rw [hfind] at h
    cases h
  | ok found =>
    obtain ⟨q, x⟩ := found
    rw [hfind] at h
    cases h
    exact ⟨q, (find_eq_ok_iff.1 hfind).1, rfl⟩

/-- The real path of a directory is the spelling of its place. -/
theorem LeadsTo.realPath {d : RealPath} (h : fs.LeadsTo p d) : fs.realPath p = .ok d.toPath := by
  obtain ⟨mode, hfind⟩ := h.find
  rw [FileSystem.realPath, hfind]
  rfl

theorem inspect_eq_ok {followLast : Bool} {info : NodeInfo} (h : fs.inspect followLast p = .ok info) :
    ∃ q x, fs.find followLast p = .ok (q, x) ∧ info.kind = x.kind := by
  rw [inspect] at h
  cases hfind : fs.find followLast p with
  | error e =>
    rw [hfind] at h
    cases h
  | ok found =>
    obtain ⟨q, x⟩ := found
    rw [hfind] at h
    cases h
    exact ⟨q, x, rfl, rfl⟩

theorem find_of_inspect_error {followLast : Bool} {e : Refusal} (h : fs.inspect followLast p = .error e) :
    fs.find followLast p = .error e := by
  rw [inspect] at h
  cases hfind : fs.find followLast p with
  | error e' =>
    rw [hfind] at h
    cases h
    rfl
  | ok found =>
    rw [hfind] at h
    cases h

theorem isDirectory_iff : fs.isDirectory p = true ↔ ∃ d, fs.LeadsTo p d := by
  rw [isDirectory, inspect]
  constructor
  · intro h
    cases hfind : fs.find true p with
    | error e =>
      rw [hfind] at h
      cases h
    | ok found =>
      obtain ⟨d, x⟩ := found
      rw [hfind] at h
      obtain ⟨m, rfl⟩ := Node.isDirectory_iff.1 h
      exact ⟨d, leadsTo_of_find hfind⟩
  · rintro ⟨d, hd⟩
    obtain ⟨m, hfind⟩ := hd.find
    rw [hfind]
    rfl

theorem setMode_eq_ok {mode : UInt32} (h : fs.setMode p mode = .ok fs') :
    ∃ q x, fs.find true p = .ok (q, x) ∧ fs' = fs.put q (x.withMode (mode &&& modeMask)) := by
  rw [setMode] at h
  split at h
  · cases h
  · next q x hfind =>
    cases h
    exact ⟨q, x, hfind, rfl⟩

theorem remove_eq_ok (h : fs.remove p = .ok fs') :
    ∃ s, fs.spot p = .ok s ∧ fs.isDirectoryAt s.place = false ∧ fs' = fs.erase s.place := by
  rw [remove] at h
  split at h
  · cases h
  · next s hs =>
    split at h
    · cases h
    · split at h
      · cases h
      · cases h
      · next x hdir hget =>
        split at h
        · cases h
        · cases h
          refine ⟨s, hs, ?_, rfl⟩
          rw [← Bool.not_eq_true, isDirectoryAt_iff]
          rintro ⟨m, hm⟩
          exact hdir m (Option.some.inj (hget.symm.trans hm))

/-- A renamed regular file takes the place of what was there, which was no directory. -/
theorem rename_file_eq_ok {mode : UInt32} {content : Bytes}
    (hget : ∀ s, fs.spot p = .ok s → fs.get? s.place = some (.file mode content))
    (h : fs.rename p p' = .ok fs') : ∃ s s', fs.spot p = .ok s ∧ fs.spot p' = .ok s' ∧
      (s.place = s'.place ∧ fs' = fs ∨
        fs' = (fs.erase s.place).put s'.place (.file mode content)) := by
  rw [rename] at h
  split at h
  · cases h
  · next s hs =>
    split at h
    · cases h
    · next s' hs' =>
      refine ⟨s, s', hs, hs', ?_⟩
      rw [hget s hs] at h
      simp only at h
      split at h
      · cases h
      · rw [moveNode] at h
        split at h
        · cases h
        · split at h
          · cases h
          · split at h
            · next hsame =>
              cases h
              exact .inl ⟨hsame, rfl⟩
            · cases h
              exact .inr rfl

theorem read_eq_ok {content : Bytes} (h : fs.read p = .ok content) :
    ∃ q x, fs.find true p = .ok (q, x) ∧ x.isDirectory = false ∧ content = x.content := by
  rw [read] at h
  split at h
  · cases h
  · cases h
  · next q x hdir hfind =>
    cases h
    refine ⟨q, x, hfind, ?_, rfl⟩
    rw [← Bool.not_eq_true, Node.isDirectory_iff]
    rintro ⟨m, rfl⟩
    exact hdir m rfl

/-- A temporary file is new, and lies in the directory that was asked for. -/
theorem createTemporary_eq_ok {name : Name} {path : Path} {place : RealPath}
    (h : fs.createTemporary p name = .ok ((path, place), fs')) :
    ∃ d n, fs.LeadsTo (fs.absolute p) d ∧ IsAcceptable (temporaryName name n) ∧
      path = (fs.absolute p).push (temporaryName name n) ∧ place = d ++ [temporaryName name n] ∧
      fs.get? place = none ∧ fs' = fs.put place (.file newFileMode []) := by
  rw [createTemporary] at h
  simp only at h
  split at h
  · cases h
  · next hnul =>
    split at h
    · cases h
    · next d mode hfind =>
      split at h
      · cases h
      · next hlong =>
        obtain ⟨n, hn⟩ := exists_freshName_eq fs d name
        have hfresh := get?_freshName fs d name
        rw [hn] at h hfresh hlong
        cases h
        have hacceptable : IsAcceptable (temporaryName name n) :=
          ⟨contains_temporaryName (Bool.not_eq_true _ ▸ hnul) n, Nat.not_lt.1 hlong⟩
        exact ⟨d, n, leadsTo_of_find hfind, hacceptable, rfl, rfl, hfresh, rfl⟩
    · cases h

theorem writeOpen_eq {content content' : Bytes} {mode : UInt32}
    (h : fs.get? q = some (.file mode content)) :
    fs.writeOpen q content' = fs.put q (.file mode content') := by
  rw [writeOpen, h]

/-! ## Running alone -/

end FileSystem

end TreeImage
