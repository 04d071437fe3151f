import TreeImage.Proofs.FileSystem.Effects
import TreeImage.Proofs.FileSystem.Entering

set_option autoImplicit false

/-! # How calls on an entry are answered

If a path names the entry `n` of the directory at `d`, what stands at `d ++ [n]` decides how every call on
the path is answered. -/

namespace TreeImage

namespace FileSystem

variable {fs : FileSystem} {p p' : Path} {d d' r : RealPath} {n n' : Name} {x : Node} {followLast : Bool}

/-- The parent of a path that names an entry leads to the entry's directory. -/
theorem Names.leadsTo (hproper : RealPath.IsProper (r ++ [n'])) (h : fs.Names (RealPath.toPath (r ++ [n'])) d n) :
    fs.LeadsTo r.toPath d := by
  obtain ⟨parent, hparent, hd⟩ := h.parent?
  rw [RealPath.parent?_toPath hproper, Option.some.injEq] at hparent
  exact hparent ▸ hd

/-- A path that names a directory leads there. -/
theorem Names.leadsTo_of_directory (h : fs.Names p d n) (hn : IsAcceptable n)
    (hdir : fs.isDirectoryAt (d ++ [n]) = true) : fs.LeadsTo p (d ++ [n]) := by
  obtain ⟨r, hproper, rfl, hd⟩ := h
  exact leadsTo_entry hproper hd hn.1 hn.2 hdir

/-- A path that names an entry enters the entry's directory, if calls accept the name. -/
theorem Names.enters (h : fs.Names p d n) (hn : IsAcceptable n) : fs.Enters p d n := by
  obtain ⟨r, hproper, rfl, hd⟩ := h
  obtain ⟨hr, hname⟩ := RealPath.isProper_append.1 hproper
  have hname := RealPath.isProper_singleton.1 hname
  rw [← RealPath.push_toPath hr hname]
  exact hd.enters_push hname hn

/-! ## Questions -/

/-- A name that no call accepts is refused as such. -/
theorem Names.find_refused (h : fs.Names p d n) (hn : ¬IsAcceptable n) :
    fs.find false p = .error (if n.contains 0 then .nulByte else .nameTooLong) := by
  obtain ⟨r, hproper, rfl, hd⟩ := h
  rw [find_entry hproper hd]
  by_cases hnul : n.contains 0 = true
  · rw [if_pos hnul, if_pos hnul]
  · have hlong : nameLimit < n.length := by
      by_contra hshort
      exact hn ⟨by simpa using hnul, Nat.not_lt.1 hshort⟩
    rw [if_neg hnul, if_pos hlong, if_neg hnul]

theorem Names.find_free (h : fs.Names p d n) (hn : IsAcceptable n) (hget : fs.get? (d ++ [n]) = none) :
    fs.find false p = .error .notFound := by
  obtain ⟨r, hproper, rfl, hd⟩ := h
  obtain ⟨hnul, hshort⟩ := hn
  rw [find_entry hproper hd, hnul, if_neg Bool.false_ne_true, if_neg (Nat.not_lt.2 hshort), hget]

/-- What is no link is found whether links are followed or not. -/
theorem Names.find_node (h : fs.Names p d n) (hn : IsAcceptable n) (hget : fs.get? (d ++ [n]) = some x)
    (hkind : x.kind ≠ .symlink) : fs.find followLast p = .ok (d ++ [n], x) := by
  cases followLast with
  | false => exact h.find hn hget
  | true => exact (h.enters hn).find_follow hget hkind

theorem Names.read_file {mode : UInt32} {content : Bytes} (h : fs.Names p d n) (hn : IsAcceptable n)
    (hget : fs.get? (d ++ [n]) = some (.file mode content)) : fs.read p = .ok content :=
  (h.enters hn).read hget

theorem inspect_of_find {q : RealPath} (h : fs.find followLast p = .ok (q, x)) :
    fs.inspect followLast p = .ok ⟨x.kind, x.mode &&& modeMask, x.content.length⟩ := by
  rw [inspect, h]
  rfl

theorem inspect_of_find_error {e : Refusal} (h : fs.find followLast p = .error e) :
    fs.inspect followLast p = .error e := by
  rw [inspect, h]
  rfl

/-! ## Changes -/

theorem Names.spot (h : fs.Names p d n) (hn : IsAcceptable n) : fs.spot p = .ok ⟨d, n, false⟩ :=
  (h.enters hn).spot

theorem Names.isProperName (h : fs.Names p d n) : IsProperName n := by
  obtain ⟨r, hproper, rfl, -⟩ := h
  exact RealPath.isProper_singleton.1 (RealPath.isProper_append.1 hproper).2

theorem Names.isPlain (h : fs.Names p d n) : (Spot.mk d n false).isPlain = true := by
  have hn := h.isProperName
  simp [Spot.isPlain, hn.ne_nil, hn.ne_dot, hn.ne_dotDot]

theorem Names.isDirectoryAt (h : fs.Names p d n) : fs.isDirectoryAt d = true := by
  obtain ⟨r, -, rfl, hd⟩ := h
  exact hd.2

/-- A directory is made where nothing stands. -/
theorem Names.makeDirectory_free (h : fs.Names p d n) (hn : IsAcceptable n)
    (hget : fs.get? (d ++ [n]) = none) :
    ∃ mode, fs.get? d = some (.directory mode) ∧
      fs.makeDirectory p = .ok (fs.put (d ++ [n]) (.directory (newDirectoryMode mode))) := by
  obtain ⟨mode, hmode⟩ := isDirectoryAt_iff.1 h.isDirectoryAt
  refine ⟨mode, hmode, ?_⟩
  simp [makeDirectory, h.spot hn, h.isPlain, Spot.place, hget, hmode, Node.mode]

theorem Names.setMode (h : fs.Names p d n) (hn : IsAcceptable n) (hget : fs.get? (d ++ [n]) = some x)
    (hkind : x.kind ≠ .symlink) (mode : UInt32) :
    fs.setMode p mode = .ok (fs.put (d ++ [n]) (x.withMode (mode &&& modeMask))) :=
  (h.enters hn).setMode hget hkind mode

theorem Names.remove_file {mode : UInt32} {content : Bytes} (h : fs.Names p d n) (hn : IsAcceptable n)
    (hget : fs.get? (d ++ [n]) = some (.file mode content)) : fs.remove p = .ok (fs.erase (d ++ [n])) :=
  (h.enters hn).remove_file hget

/-- A regular file is moved over whatever is no directory. -/
theorem Names.rename_file {mode : UInt32} {content : Bytes} (h : fs.Names p d n) (hn : IsAcceptable n)
    (h' : fs.Names p' d' n') (hn' : IsAcceptable n') (hget : fs.get? (d ++ [n]) = some (.file mode content))
    (hdir : fs.isDirectoryAt (d' ++ [n']) = false) (hne : d ++ [n] ≠ d' ++ [n']) :
    fs.rename p p' = .ok ((fs.erase (d ++ [n])).put (d' ++ [n']) (.file mode content)) := by
  rw [(h.enters hn).rename_file (h'.enters hn') hget hdir, if_neg hne]

/-- A temporary file is made in the directory that a path leads to, unless its name is too long. -/
theorem LeadsTo.createTemporary {name : Name} (h : fs.LeadsTo r.toPath d) (hnul : name.contains 0 = false) :
    fs.createTemporary r.toPath name =
      if nameLimit < (fs.freshName d name).length then
        .error ⟨.nameTooLong, some (r.toPath.push (temporaryName name 0))⟩
      else .ok ((r.toPath.push (fs.freshName d name), d ++ [fs.freshName d name]),
        fs.put (d ++ [fs.freshName d name]) (.file newFileMode [])) := by
  obtain ⟨mode, hfind⟩ := h.find
  have habsolute : fs.absolute r.toPath = r.toPath := by
    rw [absolute, RealPath.isAbsolute_toPath, if_pos rfl]
  rw [FileSystem.createTemporary, habsolute]
  simp only [hnul, Bool.false_eq_true, if_false, hfind]

/-- Where no directory is, no temporary file is made. -/
theorem createTemporary_astray (name : Name) (h : ¬∃ d, fs.LeadsTo r.toPath d) :
    ∃ fault, fs.createTemporary r.toPath name = .error fault := by
  cases hcreate : fs.createTemporary r.toPath name with
  | error fault => exact ⟨fault, rfl⟩
  | ok made =>
    obtain ⟨⟨path, place⟩, fs'⟩ := made
    obtain ⟨d, n, hd, -⟩ := createTemporary_eq_ok hcreate
    rw [absolute, RealPath.isAbsolute_toPath, if_pos rfl] at hd
    exact absurd ⟨d, hd⟩ h

end FileSystem

end TreeImage
