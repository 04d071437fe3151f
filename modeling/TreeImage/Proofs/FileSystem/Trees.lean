import TreeImage.Proofs.FileSystem.NewDirectories

set_option autoImplicit false

/-! # Reading a tree by its real places

In a table that a file system can hold, every place is spelled by its own names: the spelling leads there, and
a listing of a directory names everything that stands in it. -/

namespace TreeImage

namespace FileSystem

variable {fs : FileSystem} {p : Path} {q r base d : RealPath} {n : Name} {x : Node} {segs : List Name}
  {links : Nat}

/-! ## Names -/

/-- Every name on the way to a node is one that a directory can hold. -/
theorem IsTree.forall_mem (h : fs.IsTree) (hget : fs.get? r = some x) :
    ∀ n ∈ r, IsProperName n ∧ IsAcceptable n := by
  induction r using List.reverseRecOn generalizing x with
  | nil => exact fun n hn => absurd hn List.not_mem_nil
  | append_singleton r n ih =>
    obtain ⟨mode, hdir⟩ := isDirectoryAt_iff.1 (h.closed r n x hget)
    refine List.forall_mem_append.2 ⟨ih hdir, ?_⟩
    exact List.forall_mem_singleton.2 (h.named r n x hget)

theorem IsTree.isProper (h : fs.IsTree) (hget : fs.get? r = some x) : r.IsProper :=
  fun n hn => (h.forall_mem hget n hn).1

/-! ## Spellings -/

/-- The spelling of a directory leads there. -/
theorem IsTree.leadsTo (h : fs.IsTree) (hdir : fs.isDirectoryAt r = true) : fs.LeadsTo r.toPath r := by
  induction r using List.reverseRecOn with
  | nil =>
    refine ⟨?_, hdir⟩
    rw [resolve_toPath RealPath.isProper_nil rfl, walk_cons hdir, if_pos (.inl rfl), walk_nil]
  | append_singleton r n ih =>
    obtain ⟨mode, hget⟩ := isDirectoryAt_iff.1 hdir
    obtain ⟨hnul, hshort⟩ := (h.named r n _ hget).2
    exact leadsTo_entry (h.isProper hget) (ih (h.closed r n _ hget)) hnul hshort hdir

/-- The spelling of an entry names it. -/
theorem IsTree.names (h : fs.IsTree) (hget : fs.get? (r ++ [n]) = some x) :
    fs.Names (RealPath.toPath (r ++ [n])) r n :=
  ⟨r, h.isProper hget, rfl, h.leadsTo (h.closed r n x hget)⟩

/-- What stands at a place, be it a link, is found there. -/
theorem IsTree.find_entry (h : fs.IsTree) (hget : fs.get? (r ++ [n]) = some x) :
    fs.find false (RealPath.toPath (r ++ [n])) = .ok (r ++ [n], x) :=
  (h.names hget).find (h.named r n x hget).2 hget

/-- The spelling of a file leads there. -/
theorem IsTree.read_file (h : fs.IsTree) {mode : UInt32} {content : Bytes}
    (hget : fs.get? (r ++ [n]) = some (.file mode content)) :
    fs.read (RealPath.toPath (r ++ [n])) = .ok content :=
  (h.names hget).read_file (h.named r n _ hget).2 hget

/-! ## Listings -/

theorem get?_isSome_iff : (fs.get? q).isSome = true ↔ q ∈ fs.nodes.map Prod.fst := by
  refine ⟨mem_nodes_of_get?, fun hmem => ?_⟩
  obtain ⟨node, hnode, rfl⟩ := List.mem_map.1 hmem
  exact List.lookup_isSome_iff.2 ⟨node, hnode, beq_self_eq_true _⟩

theorem childName?_eq_some_iff : childName? r q = some n ↔ q = r ++ [n] := by
  constructor
  · intro h
    rcases List.eq_nil_or_concat q with rfl | ⟨front, m, rfl⟩
    · cases h
    · rw [childName?, List.concat_eq_append, List.getLast?_concat, List.dropLast_concat] at h
      rw [List.concat_eq_append]
      simp only [Option.ite_none_right_eq_some, Option.some.injEq] at h
      rw [h.1, h.2]
  · rintro rfl
    rw [childName?, List.getLast?_concat, List.dropLast_concat]
    simp

/-- A directory lists the names of everything in it. -/
theorem mem_children_iff : n ∈ fs.children r ↔ ∃ x, fs.get? (r ++ [n]) = some x := by
  rw [← Option.isSome_iff_exists, get?_isSome_iff, children, List.mem_filterMap, List.mem_map]
  constructor
  · rintro ⟨node, hnode, hname⟩
    exact ⟨node, hnode, childName?_eq_some_iff.1 hname⟩
  · rintro ⟨node, hnode, hplace⟩
    exact ⟨node, hnode, childName?_eq_some_iff.2 hplace⟩

theorem LeadsTo.list (h : fs.LeadsTo p d) : fs.list p = .ok (fs.children d) := by
  obtain ⟨mode, hfind⟩ := h.find
  rw [FileSystem.list, hfind]

/-! ## Real paths -/

theorem ne_symlink_of_isDirectoryAt (h : fs.isDirectoryAt q = true) (target : Bytes) :
    fs.get? q ≠ some (.symlink target) := by
  intro hlink
  obtain ⟨mode, hdir⟩ := isDirectoryAt_iff.1 h
  cases hlink.symm.trans hdir

/-- A directory lies below directories only. -/
theorem IsClosed.isDirectoryAt_of_directory (h : fs.IsClosed) (hdir : fs.isDirectoryAt (q ++ r) = true) :
    fs.isDirectoryAt q = true := by
  by_cases hr : r = []
  · rwa [hr, List.append_nil] at hdir
  · obtain ⟨mode, hget⟩ := isDirectoryAt_iff.1 hdir
    exact h.isDirectoryAt_of_prefix hr hget

/-- A walk that follows all links does not end at one. -/
theorem IsClosed.ne_symlink_of_walks (h : fs.IsClosed) (hwalks : Walks fs true links base segs d)
    (hbase : ∀ target, fs.get? base ≠ some (.symlink target)) :
    ∀ target, fs.get? d ≠ some (.symlink target) := by
  induction hwalks with
  | stop _ _ => exact hbase
  | stay _ _ _ ih => exact ih hbase
  | @up links base d rest hdir _ ih =>
    refine ih (ne_symlink_of_isDirectoryAt (h.isDirectoryAt_of_directory (r := base.drop (base.length - 1)) ?_))
    rwa [List.dropLast_eq_take, List.take_append_drop]
  | last _ _ _ _ hlast => cases hlast
  | @follow links base d s target rest hdir _ _ _ _ _ _ ih =>
    refine ih (ne_symlink_of_isDirectoryAt ?_)
    rw [walkStart]
    split
    · exact h.isDirectoryAt_of_directory hdir
    · exact hdir
  | down _ _ _ hget hkind _ ih =>
    refine ih fun target hlink => ?_
    rw [Option.some.inj (hget.symm.trans hlink)] at hkind
    exact hkind rfl

/-- What a path leads to is no link. -/
theorem IsClosed.ne_symlink_of_find (h : fs.IsClosed) (hfind : fs.find true p = .ok (q, x)) :
    x.kind ≠ .symlink := by
  obtain ⟨hresolve, hget⟩ := find_eq_ok_iff.1 hfind
  obtain ⟨-, -, hwalks⟩ := resolve_eq_ok_iff.1 hresolve
  obtain ⟨s, rest, hsegs⟩ := List.exists_cons_of_ne_nil (segments_ne_nil slash p.bytes)
  rw [Path.rawSegments, hsegs] at hwalks
  have hnot := h.ne_symlink_of_walks hwalks (ne_symlink_of_isDirectoryAt hwalks.isDirectoryAt)
  cases x with
  | symlink target => exact absurd hget (hnot target)
  | _ => simp [Node.kind]

/-- If the real path of something leads to a directory, it spells the place where that stands. -/
theorem IsTree.leadsTo_of_realPath (h : fs.IsTree) {real : Path} (hreal : fs.realPath p = .ok real)
    (hdir : fs.isDirectory real = true) : ∃ r : RealPath, real = r.toPath ∧ fs.LeadsTo p r := by
  rw [realPath] at hreal
  cases hfind : fs.find true p with
  | error e =>
    rw [hfind] at hreal
    cases hreal
  | ok found =>
    obtain ⟨r, x⟩ := found
    rw [hfind] at hreal
    cases hreal
    obtain ⟨hresolve, hget⟩ := find_eq_ok_iff.1 hfind
    refine ⟨r, rfl, hresolve, ?_⟩
    obtain ⟨d, hd⟩ := isDirectory_iff.1 hdir
    rcases List.eq_nil_or_concat r with rfl | ⟨front, n, rfl⟩
    · exact ((leadsTo_toPath_iff RealPath.isProper_nil).1 hd).2.1.isDirectoryAt
    · rw [List.concat_eq_append] at hget hd ⊢
      obtain ⟨mode, hdirectory⟩ := hd.find
      have hsame : fs.find true (RealPath.toPath (front ++ [n])) = .ok (front ++ [n], x) :=
        (h.names hget).find_node (h.named front n x hget).2 hget (h.closed.ne_symlink_of_find hfind)
      cases hsame.symm.trans hdirectory
      exact isDirectoryAt_iff.2 ⟨mode, hget⟩

end FileSystem

end TreeImage
