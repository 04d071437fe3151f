import TreeImage.Proofs.Extract.Ancestors
import TreeImage.Proofs.Extract.Sanitizing
import TreeImage.Proofs.Manifest.Checked

set_option autoImplicit false

/-! # What is selected

An entry is selected if the filter accepts it, or if it is on the way to an accepted entry
(`Manifest.Selects`). So whatever is on the way to a selected entry is selected too, and an accepted path has
accepted paths on the way. -/

namespace TreeImage

variable {front path : String} {m : Manifest} {options : ExtractOptions} {d e : Entry} {root : Path}
  {blobLength : Nat}

namespace Manifest

/-! ## Selected entries -/

/-- The entry is one of the manifest that is accepted, or on the way to an accepted one. -/
def Selects (m : Manifest) (options : ExtractOptions) (e : Entry) : Prop :=
  e ∈ m.entries ∧ (options.accepts e = true ∨
    ∃ e' ∈ m.entries, options.accepts e' = true ∧ IsOnTheWay e.path e'.path)

/-- **What is selected** from a manifest in which every path comes once. -/
theorem mem_select_iff (hpresent : ∀ e ∈ m.entries, e.path ≠ "") (hnodup : (m.entries.map (·.path)).Nodup) :
    e ∈ m.select options.filter ↔ m.Selects options e := by
  rw [Selects]
  cases hfilter : options.filter with
  | none =>
    have haccepts : options.accepts e = true := by rw [ExtractOptions.accepts, hfilter]; rfl
    simp [select, haccepts]
  | some accepts =>
    have haccepts : ∀ e, options.accepts e = accepts e := fun e => by rw [ExtractOptions.accepts, hfilter]; rfl
    simp only [select, List.mem_filter, List.contains_iff_mem, haccepts]
    refine and_congr_right fun he => ?_
    rw [mem_keptPaths_iff (hpresent e he)]
    constructor
    · rintro ⟨e', he', haccepted, hsame | habove⟩
      · rw [List.inj_on_of_nodup_map hnodup he he' hsame]
        exact .inl haccepted
      · exact .inr ⟨e', he', haccepted, habove⟩
    · rintro (haccepted | ⟨e', he', haccepted, habove⟩)
      · exact ⟨e, he, haccepted, .inl rfl⟩
      · exact ⟨e', he', haccepted, .inr habove⟩

/-- What is on the way to a selected entry is selected. -/
theorem Selects.above (h : m.Selects options e) (hd : d ∈ m.entries) (habove : IsOnTheWay d.path e.path) :
    m.Selects options d := by
  refine ⟨hd, .inr ?_⟩
  obtain ⟨he, haccepted | ⟨e', he', haccepted, habove'⟩⟩ := h
  · exact ⟨e, he, haccepted, habove⟩
  · exact ⟨e', he', haccepted, habove.trans habove'⟩

/-- Which entries are selected is settled for each of them alone. -/
theorem select_eq_filter (m : Manifest) (filter : Option (Entry → Bool)) :
    ∃ keep : Entry → Bool, m.select filter = m.entries.filter keep := by
  cases filter with
  | none => exact ⟨fun _ => true, (List.filter_true _).symm⟩
  | some accepts => exact ⟨_, rfl⟩

end Manifest

/-! ## Order -/

/-- What the passes rely on in the entries that they deal with: paths come once, directories come first, and every
    directory on the way to an entry is there before it. -/
structure Entry.InOrder (entries : List Entry) : Prop where
  present : ∀ e ∈ entries, e.path ≠ ""
  distinct : (entries.map (·.path)).Nodup
  directoriesFirst : entries.Pairwise fun e e' => e.isFile = true → e'.isFile = true
  above : ∀ e ∈ entries, ∀ front, Manifest.IsOnTheWay front e.path → ∃ d ∈ entries, d.isFile = false ∧ d.path = front
  aboveFirst : entries.Pairwise fun e e' => ¬Manifest.IsOnTheWay e'.path e.path

theorem Manifest.WellFormed.pairwise_above (h : m.WellFormed blobLength) :
    m.entries.Pairwise fun e e' => ¬IsOnTheWay e'.path e.path := by
  rw [List.pairwise_iff_getElem]
  intro i j hi hj hlt habove
  -- the place on the way is an entry before `i`, and that is not entry `j`
  obtain ⟨d, hd, -, hpath⟩ := h.directoriesAbove (m.entries.take i) m.entries[i] (m.entries.drop (i + 1))
    (by rw [List.cons_getElem_drop_succ, List.take_append_drop]) _ habove
  obtain ⟨k, hk, rfl⟩ := List.mem_take_iff_getElem.1 hd
  have hsame := List.inj_on_of_nodup_map h.distinct (List.getElem_mem _) (List.getElem_mem hj) hpath
  have heq := h.distinct.of_map.getElem_inj_iff.1 hsame
  omega

/-- The entries of a well-formed manifest are in order. -/
theorem Manifest.WellFormed.inOrder (h : m.WellFormed blobLength) : Entry.InOrder m.entries := by
  refine ⟨h.present, h.distinct, h.directoriesFirst.imp ?_, ?_, h.pairwise_above⟩
  · intro e e' hnot hfile
    cases hfile' : e'.isFile with
    | true => rfl
    | false => exact absurd ⟨hfile, by rw [Entry.isDirectory_eq_not_isFile, hfile']; rfl⟩ hnot
  · intro e he front hfront
    obtain ⟨before, after, hsplit⟩ := List.append_of_mem he
    obtain ⟨d, hd, hdirectory, hpath⟩ := h.directoriesAbove before e after hsplit front hfront
    rw [Entry.isDirectory_eq_not_isFile, Bool.not_eq_true'] at hdirectory
    exact ⟨d, hsplit ▸ List.mem_append_left _ hd, hdirectory, hpath⟩

/-! ## The selection as a manifest -/

namespace Manifest

/-- **Selected entries are a well-formed manifest over the same blob:** what a selected entry needs above it is
    selected with it, and what else is asked of a manifest holds of some of its entries as it does of all. -/
theorem WellFormed.select (h : m.WellFormed blobLength) : WellFormed ⟨m.select options.filter⟩ blobLength := by
  have hsublist := m.select_sublist options.filter
  have hdirectories : (directories ⟨m.select options.filter⟩).Sublist m.directories := hsublist.filter _
  have hfiles : (files ⟨m.select options.filter⟩).Sublist m.files := hsublist.filter _
  have hselects : ∀ e, e ∈ m.select options.filter ↔ m.Selects options e :=
    fun e => mem_select_iff h.present h.distinct
  refine
    { present := fun e he => h.present e (hsublist.subset he)
      distinct := h.distinct.sublist (hsublist.map _)
      directoriesFirst := h.directoriesFirst.sublist hsublist
      sortedDirectories := h.sortedDirectories.sublist hdirectories
      sortedFiles := h.sortedFiles.sublist hfiles
      bareDirectories := fun e he => h.bareDirectories e (hdirectories.subset he)
      filesInside := fun e he => h.filesInside e (hfiles.subset he)
      disjointFiles := h.disjointFiles.sublist (hfiles.filter _)
      directoriesAbove := ?_ }
  intro before e after (hsplit : m.select options.filter = before ++ e :: after) front hfront
  -- the directory is an entry of the whole manifest, and selected because it is on the way to `e`
  have he : m.Selects options e := (hselects e).1 (hsplit ▸ List.mem_append_right _ List.mem_cons_self)
  obtain ⟨d, hd, hdirectory, rfl⟩ := h.inOrder.above e he.1 front hfront
  have hdselected := (hselects d).2 (he.above hd hfront)
  refine ⟨d, ?_, by rw [Entry.isDirectory_eq_not_isFile, hdirectory]; rfl, rfl⟩
  -- it is not `e`, and not after `e`
  have hpairs := h.pairwise_above.sublist hsublist
  rw [hsplit] at hpairs hdselected
  rcases List.mem_append.1 hdselected with hbefore | hfrom
  · exact hbefore
  · rcases List.mem_cons.1 hfrom with rfl | hafter
    · exact absurd hfront (not_isOnTheWay_self _)
    · exact absurd hfront (List.rel_of_pairwise_cons (List.pairwise_append.1 hpairs).2.1 hafter)

/-- **What is selected from a manifest that passed its checks:** in manifest order, the accepted entries and those
    on the way to one; and this selection passes the same checks. -/
theorem select_ancestor_closure (options : ExtractOptions) (h : m.validate blobLength = .ok ()) :
    (m.select options.filter).Sublist m.entries ∧
      (∀ e, e ∈ m.select options.filter ↔ m.Selects options e) ∧
      Manifest.validate ⟨m.select options.filter⟩ blobLength = .ok () := by
  have hformed := (validate_eq_ok_iff_wellFormed _ _).1 h
  exact ⟨m.select_sublist _, fun e => mem_select_iff hformed.present hformed.distinct,
    (validate_eq_ok_iff_wellFormed _ _).2 hformed.select⟩

/-- Two accepted files under one directory: the walk up from the second stops at the directory of the first. -/
theorem select_ancestor_closure_shared_directory :
    let m : Manifest := ⟨[.directory "docs" none, .directory "lib" none, .directory "lib/deep" none,
      .file "lib/deep/x" 0 1 .zero none, .file "lib/deep/y" 1 2 .zero none]⟩
    let options : ExtractOptions := { filter := some (·.isFile) }
    m.validate 3 = .ok () ∧
      (m.select options.filter).map (·.path) = ["lib", "lib/deep", "lib/deep/x", "lib/deep/y"] ∧
      Manifest.validate ⟨m.select options.filter⟩ 3 = .ok () := by
  intro m options
  have hvalid : m.validate 3 = .ok () := by cbv
  exact ⟨hvalid, by decide +kernel, (select_ancestor_closure options hvalid).2.2⟩

end Manifest

/-! ## Accepted paths -/

theorem pathFault?_eq_none_iff : pathFault? path = none ↔ path ≠ "" ∧ path.toList.head? ≠ some '/' ∧
    '\x00' ∉ path.toList ∧ '\\' ∉ path.toList ∧ hasDrivePrefix path.toList = false := by
  have hnext : ∀ (c : Prop) [Decidable c] (fault : PathFault) (next : Option PathFault),
      (if c then some fault else next) = none ↔ ¬c ∧ next = none := by
    intro c _ fault next
    split <;> simp_all
  simp only [pathFault?, hnext, String.isEmpty_iff, List.contains_iff_mem, Bool.not_eq_true, and_true, ne_eq]

theorem hasDrivePrefix_of_append {cs back : List Char} (h : hasDrivePrefix (cs ++ back) = false) :
    hasDrivePrefix cs = false := by
  match cs with
  | [] | [_] => rfl
  | c :: d :: rest =>
    by_cases hd : d = ':'
    · subst hd
      exact h
    · simp [hasDrivePrefix, hd]

/-- Whatever is on the way to an accepted path is accepted. -/
theorem exists_sanitize_above {p : Path} (h : sanitize root path = .ok p) (habove : Manifest.IsOnTheWay front path) :
    ∃ q, sanitize root front = .ok q := by
  obtain ⟨hpath, hsegments⟩ := no_fault_of_sanitize h
  obtain ⟨hne, back, hback⟩ := habove
  have hfront : front.toList ≠ [] := mt String.toList_eq_nil_iff.1 hne
  obtain ⟨-, hhead, hnul, hbackslash, hdrive⟩ := pathFault?_eq_none_iff.1 hpath
  rw [hback] at hhead hnul hbackslash hdrive
  rw [pathSegments, hback, segments_append, List.findSome?_append, Option.or_eq_none_iff] at hsegments
  rw [List.head?_append_of_ne_nil _ hfront] at hhead
  refine ⟨_, sanitize_of_no_fault root (pathFault?_eq_none_iff.2 ⟨hne, hhead, ?_, ?_, ?_⟩) hsegments.1⟩
  · exact fun hmem => hnul (List.mem_append_left _ hmem)
  · exact fun hmem => hbackslash (List.mem_append_left _ hmem)
  · exact hasDrivePrefix_of_append hdrive

/-- The parent of an accepted path is on the way to it. -/
theorem isOnTheWay_of_parentPath? {p : Path} {parent : String} (h : sanitize root path = .ok p)
    (hparent : parentPath? path = some parent) : Manifest.IsOnTheWay parent path := by
  refine ⟨?_, _, parentPath?_eq_some hparent⟩
  rintro rfl
  -- the path would be absolute
  refine (pathFault?_eq_none_iff.1 (no_fault_of_sanitize h).1).2.1 ?_
  rw [parentPath?_eq_some hparent]
  rfl

/-! ## Images that were read -/

theorem Image.mem_select_iff {bytes : Bytes} {image : Image} (h : Image.parse bytes = .ok image) :
    e ∈ image.manifest.select options.filter ↔ image.manifest.Selects options e := by
  obtain ⟨⟨blobLength, hvalid⟩, -⟩ := Image.validate_of_parse h
  refine Manifest.mem_select_iff ?_ (Image.nodup_of_parse h)
  exact fun e he => (Manifest.checkEntries_eq_ok_iff.1 (Manifest.validate_eq_ok hvalid).1).1 e he

/-- The selected entries of an image are in order. -/
theorem Image.inOrder_select {bytes : Bytes} {image : Image} (h : Image.parse bytes = .ok image) :
    Entry.InOrder (image.manifest.select options.filter) := by
  obtain ⟨⟨blobLength, hvalid⟩, -⟩ := Image.validate_of_parse h
  have hformed := (Manifest.validate_eq_ok_iff_wellFormed _ _).1 hvalid
  have hselected : Manifest.WellFormed ⟨image.manifest.select options.filter⟩ blobLength := hformed.select
  exact hselected.inOrder

end TreeImage
