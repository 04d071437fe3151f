import TreeImage.Proofs.Extract.FreshTarget
import TreeImage.Proofs.Extract.Sanitizing
import TreeImage.Proofs.Pack.Reading

set_option autoImplicit false

/-! # Packed paths are accepted

A path that was packed is made of names that a directory holds, and has no backslash. So extraction accepts it
below every root, unless it starts like a drive: names at the top may have a colon behind their first letter. -/

namespace TreeImage

open FileSystem

variable {fs : FileSystem} {options : PackOptions} {source : Path} {packed : PackedImage} {plan : WalkPlan}
  {top : RealPath} {found : List SourceEntry} {read : List (Entry × Bytes)} {e : Entry}

/-- What is wrong with a packed path, if anything, is that it starts like a drive. -/
theorem PackedImage.MadeFrom.sanitize (htree : plan.fs.IsTree) (h : packed.MadeFrom plan top found read)
    (he : e ∈ packed.manifest.entries) (root : Path) :
    TreeImage.sanitize root e.path = if hasDrivePrefix e.path.toList then .error (.unsafePath e.path .drivePrefix)
      else .ok (root.join (.ofString e.path)) := by
  obtain ⟨content, item, -, hitem, offset, hread⟩ := h.exists_item htree he
  have hpath : e.path = item.path := hread.path
  obtain ⟨x, hget, -⟩ := hitem.node
  have hnames : ∀ n ∈ entryNames item.path, IsProperName n ∧ IsAcceptable n := fun n hn =>
    htree.forall_mem hget n (List.mem_append_right _ hn)
  rw [hpath]
  exact sanitize_eq root (fun n hn => (hnames n hn).1) (fun n hn => (hnames n hn).2.1) hitem.noBackslash

/-- **Packer and extractor agree on paths** but for drives. Every path in a packed manifest is accepted below
    every root unless it starts like a drive, and then it is refused as such; without such a path a strict run
    gets past its paths. -/
theorem sanitize_packed (htree : fs.IsTree) (h : pack fs options source = .ok packed) :
    (∀ e ∈ packed.manifest.entries, ∀ root, sanitize root e.path =
      if hasDrivePrefix e.path.toList then .error (.unsafePath e.path .drivePrefix)
      else .ok (root.join (.ofString e.path))) ∧
    ((∀ e ∈ packed.manifest.entries, hasDrivePrefix e.path.toList = false) →
      ∀ root filter, ∃ slots, slotsFor root true (packed.manifest.select filter) = .ok slots) := by
  obtain ⟨plan, top, found, read, rfl, -, -, hmade⟩ := pack_eq_ok htree h
  refine ⟨fun e he root => hmade.sanitize htree he root, fun hplain root filter => ?_⟩
  refine exists_slotsFor true fun e he => ?_
  have hmem := (packed.manifest.select_sublist filter).subset he
  rw [hmade.sanitize htree hmem, hplain e hmem, if_neg Bool.false_ne_true]
  exact ⟨_, rfl⟩

/-- A colon is no trouble in a name further down. -/
theorem sanitize_packed_colon :
    let fs : FileSystem := ⟨[([], .directory 0o755), ([utf8 "src"], .directory 0o755),
      ([utf8 "src", utf8 "d"], .directory 0o700), ([utf8 "src", utf8 "d", utf8 "a:b"], .file 0o644 [120])], [],
      .ofString "/bin/pack"⟩
    let packed : PackedImage := ⟨⟨[.directory "d" (some 0o700), .file "d/a:b" 0 1 (.of [120]) (some 0o644)]⟩, [120],
      [.ofString "/src", .ofString "/src/d", .ofString "/src/d/a:b"]⟩
    (fs.IsTree ∧ pack fs {} (.ofString "/src") = .ok packed ∧
      ∀ e ∈ packed.manifest.entries, hasDrivePrefix e.path.toList = false) ∧
    (∀ root, sanitize root "d/a:b" = .ok (root.join (.ofString "d/a:b"))) ∧
    ∀ root, ∃ slots, slotsFor root true packed.manifest.entries = .ok slots := by
  intro fs packed
  have htree : fs.IsTree := isTree_of_checksTree (by decide)
  have hwalk : WalkPlan.walk ⟨fs, .empty, none, {}⟩ (.ofString "/src") =
      .ok [⟨"d", .ofString "/src/d", .directory, some 0o700⟩,
        ⟨"d/a:b", .ofString "/src/d/a:b", .file, some 0o644⟩] := by cbv
  have hvalid : ∀ digest, Manifest.validate ⟨[.directory "d" (some 0o700), .file "d/a:b" 0 1 digest (some 0o644)]⟩ 1 =
      .ok () := by
    intro digest
    cbv
  have hpack : pack fs {} (.ofString "/src") = .ok packed :=
    pack_of_turns rfl (by decide) rfl hwalk rfl (hvalid _)
  have hplain : ∀ e ∈ packed.manifest.entries, hasDrivePrefix e.path.toList = false := by
    exact List.forall_mem_cons.2 ⟨by decide, List.forall_mem_singleton.2 (by decide)⟩
  obtain ⟨haccepted, hslots⟩ := sanitize_packed htree hpack
  refine ⟨⟨htree, hpack, hplain⟩, ?_, fun root => hslots hplain root none⟩
  exact haccepted (.file "d/a:b" 0 1 (.of [120]) (some 0o644)) (List.mem_cons_of_mem _ List.mem_cons_self)

/-- A name that starts like a drive is packed, and its image is extracted nowhere. -/
theorem packed_drive_refused :
    let fs : FileSystem := ⟨[([], .directory 0o755), ([utf8 "out"], .directory 0o755),
      ([utf8 "src"], .directory 0o755), ([utf8 "src", utf8 "a:b"], .file 0o644 [120])], [], .ofString "/bin/pack"⟩
    ∃ packed, pack fs {} (.ofString "/src") = .ok packed ∧ (∃ e ∈ packed.manifest.entries,
      ∀ root, sanitize root e.path = .error (.unsafePath e.path .drivePrefix)) ∧
    (extract {} [] (.written packed.manifest packed.blob) (some (.ofString "/out")) (.start fs {})).1 =
      .error (.unsafePath "a:b" .drivePrefix) := by
  refine ⟨⟨⟨[.file "a:b" 0 1 (.of [120]) (some 0o644)]⟩, [120], [.ofString "/src", .ofString "/src/a:b"]⟩,
    by with_unfolding_all rfl, ⟨_, List.mem_singleton_self _, fun root => rfl⟩, ?_⟩
  with_unfolding_all rfl

end TreeImage
