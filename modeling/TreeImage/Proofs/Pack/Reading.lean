import TreeImage.Pack.Basic
import TreeImage.Proofs.Manifest.Checked
import TreeImage.Proofs.Pack.Exploring
import TreeImage.Proofs.Pack.Failing

set_option autoImplicit false

/-! # What a packed image is made of

The files that were found are read in turn, and each lies in the blob behind those that were read before it
(`ReadsAs`). `WalkPlan.Collects` says what there is to pack before it is checked, and `PackedImage.MadeFrom` what is
known of a packed image. -/

namespace TreeImage

open FileSystem

variable {fs : FileSystem} {limit offset : Nat} {item : SourceEntry} {items found : List SourceEntry}
  {r : Entry × Bytes} {read : List (Entry × Bytes)} {options : PackOptions} {source : Path} {packed : PackedImage}

/-! ## Content -/

/-- What is read for an entry when `offset` bytes were read before. -/
inductive ReadFrom (fs : FileSystem) (offset : Nat) (item : SourceEntry) : Entry × Bytes → Prop
  | directory (hkind : item.kind = .directory) :
      ReadFrom fs offset item (.directory item.path item.mode, [])
  | file {content : Bytes} (hkind : item.kind = .file) (hread : fs.read item.source = .ok content) :
      ReadFrom fs offset item
        (.file item.path offset.toUInt64 content.length.toUInt64 (.of content) item.mode, content)

theorem ReadFrom.path (h : ReadFrom fs offset item r) : r.1.path = item.path := by cases h <;> rfl

theorem ReadFrom.mode (h : ReadFrom fs offset item r) : r.1.mode = item.mode := by cases h <;> rfl

/-- Where content starts, and how long it is. -/
theorem ReadFrom.start_size (h : ReadFrom fs offset item r) (hfile : r.1.isFile = true)
    (hfits : offset + r.2.length < byteCapacity 8) : r.1.start = offset ∧ r.1.size.toNat = r.2.length := by
  have hcapacity : byteCapacity 8 = UInt64.size := rfl
  cases h with
  | directory _ => cases hfile
  | @file content _ _ =>
    have hlength : offset + content.length < byteCapacity 8 := hfits
    exact ⟨toNat_toUInt64_of_lt (by omega), toNat_toUInt64_of_lt (by omega)⟩

/-- What is read for entries in turn. -/
inductive ReadsAs (fs : FileSystem) : Nat → List SourceEntry → List (Entry × Bytes) → Prop
  | nil (offset : Nat) : ReadsAs fs offset [] []
  | cons {offset : Nat} {item : SourceEntry} {items : List SourceEntry} {r : Entry × Bytes}
      {read : List (Entry × Bytes)} (first : ReadFrom fs offset item r)
      (rest : ReadsAs fs (offset + r.2.length) items read) : ReadsAs fs offset (item :: items) (r :: read)

/-- What is read never exceeds the limit. -/
theorem readEntries_eq_ok (h : readEntries fs limit offset items = .ok read) :
    ReadsAs fs offset items read ∧ (offset ≤ limit → offset + (read.flatMap (·.2)).length ≤ limit) := by
  induction items generalizing offset read with
  | nil =>
    cases h
    exact ⟨.nil offset, id⟩
  | cons item items ih =>
    rw [readEntries] at h
    split at h
    · next hkind =>
      obtain ⟨rest, hrest, rfl⟩ := except_map_eq_ok.1 h
      obtain ⟨hreads, hfits⟩ := ih hrest
      exact ⟨.cons (.directory hkind) hreads, hfits⟩
    · next hkind =>
      split at h
      · cases h
      next content hread =>
      simp only at h
      split at h
      · cases h
      next hlimit =>
      obtain ⟨rest, hrest, rfl⟩ := except_map_eq_ok.1 h
      obtain ⟨hreads, hfits⟩ := ih hrest
      refine ⟨.cons (.file hkind hread) hreads, fun _ => ?_⟩
      rw [List.flatMap_cons, List.length_append, ← Nat.add_assoc]
      exact hfits (Nat.not_lt.1 hlimit)

namespace ReadsAs

/-- What is read for an entry comes after what was read for those before it. -/
theorem split {before after : List (Entry × Bytes)} (h : ReadsAs fs offset items (before ++ r :: after)) :
    ∃ item ∈ items, ReadFrom fs (offset + (before.flatMap (·.2)).length) item r := by
  induction before generalizing offset items with
  | nil =>
    cases h with
    | @cons _ item items _ _ first _ => exact ⟨item, List.mem_cons_self, first⟩
  | cons b before ih =>
    cases h with
    | @cons _ item items _ _ _ rest =>
      obtain ⟨item, hitem, hread⟩ := ih rest
      refine ⟨item, List.mem_cons_of_mem _ hitem, ?_⟩
      rwa [List.flatMap_cons, List.length_append, ← Nat.add_assoc]

theorem map_path (h : ReadsAs fs offset items read) : (read.map (·.1)).map (·.path) = items.map (·.path) := by
  induction h with
  | nil _ => rfl
  | cons first _ ih => rw [List.map_cons, List.map_cons, List.map_cons, ih, first.path]

/-- Every content lies in the blob where its entry says. -/
theorem slice?_blob (h : ReadsAs fs 0 items read) (hfits : (read.flatMap (·.2)).length < byteCapacity 8) :
    ∀ r ∈ read, slice? (read.flatMap (·.2)) r.1.start r.1.stopWord = some r.2 := by
  intro r hr
  obtain ⟨before, after, rfl⟩ := List.append_of_mem hr
  obtain ⟨item, -, hread⟩ := h.split
  rw [List.flatMap_append, List.flatMap_cons] at hfits ⊢
  cases hfile : r.1.isFile with
  | false =>
    cases hread with
    | directory _ => exact slice?_append [] [] _
    | file _ _ => cases hfile
  | true =>
    simp only [List.length_append] at hfits
    obtain ⟨hstart, hsize⟩ := hread.start_size hfile (by omega)
    have hcapacity : byteCapacity 8 = UInt64.size := rfl
    rw [Entry.stopWord, Entry.stop, ← Entry.start, hstart, hsize, Nat.zero_add, Nat.min_eq_left (by omega)]
    exact slice?_append _ _ _

/-- Everything that was read is from an entry that was found. -/
theorem exists_item (h : ReadsAs fs offset items read) (hr : r ∈ read) :
    ∃ item ∈ items, ∃ offset, ReadFrom fs offset item r := by
  obtain ⟨before, after, rfl⟩ := List.append_of_mem hr
  obtain ⟨item, hitem, hread⟩ := h.split
  exact ⟨item, hitem, _, hread⟩

end ReadsAs

/-! ## Packed images -/

/-- What there is to pack: what a walk that starts at the directory `top` finds, and what is read of it. -/
structure WalkPlan.Collects (plan : WalkPlan) (top : RealPath) (found : List SourceEntry)
    (read : List (Entry × Bytes)) : Prop where
  start : plan.fs.isDirectoryAt top = true
  rules : loadRules plan.fs top.toPath plan.options = .ok (plan.rules, plan.skip)
  walk : plan.walk top.toPath = .ok found
  reads : ReadsAs plan.fs 0 found read
  within : (read.flatMap (·.2)).length ≤ plan.options.maxTotalSize

/-- How a packed image came about: from what was collected, which passed the checks. -/
structure PackedImage.MadeFrom (plan : WalkPlan) (top : RealPath) (found : List SourceEntry)
    (read : List (Entry × Bytes)) (packed : PackedImage) : Prop extends plan.Collects top found read where
  entries : packed.manifest.entries = read.map (·.1)
  blob : packed.blob = read.flatMap (·.2)
  valid : packed.manifest.validate packed.blob.length = .ok ()

theorem PackedImage.MadeFrom.fits {plan : WalkPlan} {top : RealPath} (h : packed.MadeFrom plan top found read) :
    packed.blob.length ≤ plan.options.maxTotalSize := h.blob ▸ h.within

/-- If every turn comes off, so does packing. -/
theorem pack_of_turns {root : Path} {rules : IgnoreRules} {skip : Option Path} (hreal : fs.realPath source = .ok root)
    (hdir : fs.isDirectory root = true) (hrules : loadRules fs root options = .ok (rules, skip))
    (hwalk : WalkPlan.walk ⟨fs, rules, skip, options⟩ root = .ok found)
    (hread : readEntries fs options.maxTotalSize 0 found = .ok read)
    (hvalid : Manifest.validate ⟨read.map (·.1)⟩ (read.flatMap (·.2)).length = .ok ()) :
    pack fs options source =
      .ok ⟨⟨read.map (·.1)⟩, read.flatMap (·.2), root :: skip.toList ++ found.map (·.source)⟩ := by
  rw [pack, hreal]
  simp only [hdir, if_true, packRoot, hrules, hwalk, hread, hvalid]

/-- Packing a directory in which there is nothing but one file. -/
theorem pack_single_file {root : Path} {name : String} {mode : UInt32} (content : Bytes)
    (hreal : fs.realPath source = .ok root) (hdir : fs.isDirectory root = true)
    (hrules : loadRules fs root {} = .ok (.empty, none)) (hlist : fs.list root = .ok [utf8 name])
    (hinspect : fs.inspect false (root.push (utf8 name)) = .ok ⟨.file, mode, content.length⟩)
    (hread : fs.read (root.push (utf8 name)) = .ok content) (hfits : content.length ≤ defaultMaxTotalSize)
    (hsome : name ≠ "") (hplain : '\\' ∉ name.toList) (hslash : '/' ∉ name.toList)
    (hshort : (utf8 name).length ≤ maxPathLength) :
    pack fs {} source = .ok ⟨⟨[.file name 0 content.length.toUInt64 (.of content) (some mode)]⟩, content,
      [root, root.push (utf8 name)]⟩ := by
  let e : Entry := .file name 0 content.length.toUInt64 (.of content) (some mode)
  have hkeep : ¬defaultMaxTotalSize < content.length := Nat.not_lt.2 hfits
  have hpath : SourceDirectory.entryPath ⟨root, none⟩ (utf8 name) = .ok name := by
    simp [SourceDirectory.entryPath, hplain]
  have hvisit : WalkPlan.visit ⟨fs, .empty, none, {}⟩ ⟨root, none⟩ {} (utf8 name) =
      .ok { entries := [⟨name, root.push (utf8 name), .file, some mode⟩], declared := content.length } := by
    have hignored : ∀ isDirectory, IgnoreRules.empty.isIgnored name isDirectory = false := fun _ => rfl
    have hfile : NodeKind.file ≠ .symlink := by decide
    simp only [WalkPlan.visit, Option.any_none, Bool.false_eq_true, if_false, hinspect, hfile, hpath, hignored,
      Nat.not_lt.2 hshort, WalkPlan.keep, hkeep, Nat.zero_add, WalkPlan.recordedMode, if_true]
  have hwalk : WalkPlan.walk ⟨fs, .empty, none, {}⟩ root = .ok [⟨name, root.push (utf8 name), .file, some mode⟩] := by
    have hnone : ∀ fuel (s : WalkState), s.pending = [] → WalkPlan.enter ⟨fs, .empty, none, {}⟩ fuel s = .ok s := by
      intro fuel s hs
      cases fuel with
      | zero => rfl
      | succ fuel => simp only [WalkPlan.enter, hs]
    simp only [WalkPlan.walk, WalkPlan.enter, hlist, List.mergeSort_singleton, WalkPlan.visitAll, hvisit]
    rw [hnone _ _ rfl]
    simp only [Except.map, List.reverse_singleton, List.mergeSort_singleton]
  have hvalid : Manifest.validate ⟨[e]⟩ content.length = .ok () := by
    have hcapacity : defaultMaxTotalSize < byteCapacity 8 := by decide
    have hstop : e.stop = content.length := by
      show (0 : UInt64).toNat + content.length.toUInt64.toNat = content.length
      rw [toNat_toUInt64_of_lt (by omega)]
      exact Nat.zero_add _
    have hentries : Manifest.checkEntries content.length [] [e] = .ok () := by
      have hempty : e.path.isEmpty = false := by
        rw [← Bool.not_eq_true, String.isEmpty_iff]
        exact hsome
      simp only [Manifest.checkEntries, Manifest.checkEntry, hempty, Bool.false_eq_true, if_false, List.any_nil,
        List.head?_nil, Option.any_none, hstop, Nat.lt_irrefl]
      rfl
    have hdisjoint : Manifest.checkDisjoint (Manifest.byOffset ⟨[e]⟩) = .ok () := by
      have hlength : (Manifest.byOffset ⟨[e]⟩).length ≤ 1 := by
        rw [Manifest.byOffset, List.length_mergeSort]
        exact (List.length_filter_le _ _).trans (List.length_filter_le _ _)
      rcases hoffset : Manifest.byOffset ⟨[e]⟩ with _ | ⟨_, _ | ⟨_, _⟩⟩
      · rfl
      · rfl
      · rw [hoffset] at hlength
        simp at hlength
    have hparents : Manifest.checkParents [] [e] = .ok () := by
      have hparent : e.parent? = none := parentPath?_eq_none hslash
      rw [Manifest.checkParents, Manifest.neededParent?, hparent]
      rfl
    rw [Manifest.validate, hentries, hdisjoint, hparents]
    rfl
  have hread' : readEntries fs defaultMaxTotalSize 0 [⟨name, root.push (utf8 name), .file, some mode⟩] =
      .ok [(e, content)] := by
    simp only [readEntries, hread, Nat.zero_add, hkeep, if_false]
    rfl
  have hblob : [(e, content)].flatMap (·.2) = content := List.flatMap_singleton _ _
  have hpack := pack_of_turns hreal hdir hrules hwalk hread' (by rwa [hblob])
  rwa [hblob] at hpack

/-- Packing fails before the checks, or collects what there is to pack and checks it. -/
theorem pack_cases (htree : fs.IsTree) (options : PackOptions) (source : Path) :
    (∃ e, pack fs options source = .error e ∧ e.isFormat = false) ∨
      ∃ (plan : WalkPlan) (top : RealPath) (found : List SourceEntry) (read : List (Entry × Bytes))
        (sources : List Path), plan.fs = fs ∧ plan.options = options ∧ fs.LeadsTo source top ∧
        plan.Collects top found read ∧ pack fs options source =
          ((Manifest.validate ⟨read.map (·.1)⟩ (read.flatMap (·.2)).length).mapError .format).map
            fun _ => ⟨⟨read.map (·.1)⟩, read.flatMap (·.2), sources⟩ := by
  rw [pack]
  cases hreal : fs.realPath source with
  | error e => exact .inl ⟨.read source e, rfl, rfl⟩
  | ok root =>
  cases hdir : fs.isDirectory root with
  | false =>
    simp only [hdir]
    exact .inl ⟨.notADirectory root, rfl, rfl⟩
  | true =>
  obtain ⟨top, rfl, hleads⟩ := htree.leadsTo_of_realPath hreal hdir
  simp only [hdir, if_true, packRoot]
  cases hrules : loadRules fs top.toPath options with
  | error e => exact .inl ⟨e, rfl, loadRules_eq_error hrules⟩
  | ok loaded =>
  obtain ⟨rules, skip⟩ := loaded
  simp only
  cases hwalk : WalkPlan.walk ⟨fs, rules, skip, options⟩ top.toPath with
  | error e => exact .inl ⟨e, rfl, WalkPlan.walk_eq_error hwalk⟩
  | ok found =>
  simp only
  cases hread : readEntries fs options.maxTotalSize 0 found with
  | error e => exact .inl ⟨e, rfl, readEntries_eq_error hread⟩
  | ok read =>
  obtain ⟨hreads, hfits⟩ := readEntries_eq_ok hread
  have hwithin := hfits (Nat.zero_le _)
  rw [Nat.zero_add] at hwithin
  refine .inr ⟨⟨fs, rules, skip, options⟩, top, found, read, top.toPath :: skip.toList ++ found.map (·.source),
    rfl, rfl, hleads, ⟨hleads.2, hrules, hwalk, hreads, hwithin⟩, ?_⟩
  simp only
  cases Manifest.validate ⟨read.map (·.1)⟩ (read.flatMap (·.2)).length <;> rfl

/-- Packing takes its turns one after the other. -/
theorem pack_eq_ok (htree : fs.IsTree) (h : pack fs options source = .ok packed) :
    ∃ plan top found read, plan.fs = fs ∧ plan.options = options ∧ fs.LeadsTo source top ∧
      packed.MadeFrom plan top found read := by
  rcases pack_cases htree options source with ⟨e, herror, -⟩ | ⟨plan, top, found, read, sources, hfs, hoptions,
    hleads, hcollects, hresult⟩
  · cases h.symm.trans herror
  · obtain ⟨⟨⟩, hvalid, rfl⟩ := except_map_eq_ok.1 (hresult.symm.trans h)
    refine ⟨plan, top, found, read, hfs, hoptions, hleads, ⟨hcollects, rfl, rfl, ?_⟩⟩
    cases hcheck : Manifest.validate ⟨read.map (·.1)⟩ (read.flatMap (·.2)).length with
    | ok _ => rfl
    | error e =>
      rw [hcheck] at hvalid
      cases hvalid

/-- An entry with this content is what is packed for a node. -/
inductive PackedFrom (e : Entry) (content : Bytes) : Node → Prop
  | directory {mode : UInt32} (hkind : e.isFile = false) : PackedFrom e content (.directory mode)
  | file {mode : UInt32} (hkind : e.isFile = true) (hdigest : e.digest = .of content) :
      PackedFrom e content (.file mode content)

/-- What is read for an entry is what stands at its place. -/
theorem ReadFrom.packedFrom {plan : WalkPlan} {top : RealPath} (htree : plan.fs.IsTree)
    (hitem : item.Stands plan top) (h : ReadFrom plan.fs offset item r) :
    ∃ x, plan.fs.get? (top ++ entryNames r.1.path) = some x ∧ PackedFrom r.1 r.2 x ∧ r.2 = x.content ∧
      r.1.mode = if plan.options.preservePermissions then some (x.mode &&& modeMask) else none := by
  obtain ⟨x, hget, hkind, hmode⟩ := hitem.node
  have hsource := hitem.source
  rw [h.path, h.mode]
  refine ⟨x, hget, ?_⟩
  cases h with
  | directory hdirectory =>
    rw [hdirectory] at hkind
    cases x with
    | directory mode => exact ⟨.directory rfl, rfl, hmode⟩
    | _ => cases hkind
  | @file content hfile hread =>
    rw [hfile] at hkind
    cases x with
    | file mode content' =>
      obtain ⟨front, hfront⟩ := exists_entryNames_eq_append item.path
      rw [hfront, ← List.append_assoc] at hget hsource
      rw [hsource, htree.read_file hget] at hread
      cases hread
      exact ⟨.file rfl rfl, rfl, hmode⟩
    | _ => cases hkind

namespace PackedImage.MadeFrom

variable {plan : WalkPlan} {top front : RealPath} {e : Entry} (htree : plan.fs.IsTree)
  (h : packed.MadeFrom plan top found read)

include h

/-- No path comes twice. -/
theorem nodup_paths : (found.map (·.path)).Nodup := by
  have hentries := (Manifest.validate_eq_ok h.valid).1
  rw [← h.reads.map_path, ← h.entries]
  exact (Manifest.checkEntries_eq_ok_iff.1 hentries).2.2.1

include htree

/-- Every entry of the manifest is one that was found. -/
theorem exists_item (he : e ∈ packed.manifest.entries) :
    ∃ content item, (e, content) ∈ read ∧ item.Stands plan top ∧
      ∃ offset, ReadFrom plan.fs offset item (e, content) := by
  rw [h.entries] at he
  obtain ⟨⟨e, content⟩, hr, rfl⟩ := List.mem_map.1 he
  obtain ⟨item, hitem, offset, hread⟩ := h.reads.exists_item hr
  exact ⟨content, item, hr, ((WalkPlan.walk_eq_ok htree h.start h.walk).1 item hitem).1, offset, hread⟩

/-- Nothing that is left out is in the manifest. -/
theorem not_excludes_of_mem (he : e ∈ packed.manifest.entries) : ¬plan.Excludes top (entryNames e.path) := by
  rw [h.entries] at he
  obtain ⟨r, hr, rfl⟩ := List.mem_map.1 he
  obtain ⟨item, hitem, offset, hread⟩ := h.reads.exists_item hr
  rw [hread.path]
  exact ((WalkPlan.walk_eq_ok htree h.start h.walk).1 item hitem).2

/-- **Every entry describes the node at its place**, and its content is where the entry says. -/
theorem packedFrom (hblob : packed.blob.length < byteCapacity 8) (he : e ∈ packed.manifest.entries) :
    ∃ x, plan.fs.get? (top ++ entryNames e.path) = some x ∧ PackedFrom e x.content x ∧
      slice? packed.blob e.start e.stopWord = some x.content ∧
      e.mode = if plan.options.preservePermissions then some (x.mode &&& modeMask) else none := by
  obtain ⟨content, item, hr, hstands, offset, hread⟩ := h.exists_item htree he
  obtain ⟨x, hget, hpacked, rfl, hmode⟩ := hread.packedFrom htree hstands
  rw [h.blob] at hblob ⊢
  exact ⟨x, hget, hpacked, h.reads.slice?_blob hblob _ hr, hmode⟩

/-- **Everything below the start is packed** unless it is left out. -/
theorem complete {x : Node} (hfront : front ≠ []) (hget : plan.fs.get? (top ++ front) = some x) :
    plan.Excludes top front ∨ ∃ e ∈ packed.manifest.entries, entryNames e.path = front := by
  refine ((WalkPlan.walk_eq_ok htree h.start h.walk).2 h.nodup_paths front x hfront hget).imp_right ?_
  rintro ⟨item, hitem, hnames⟩
  have hpath : item.path ∈ (read.map (·.1)).map (·.path) := by
    rw [h.reads.map_path]
    exact List.mem_map_of_mem hitem
  obtain ⟨e, he, heq⟩ := List.mem_map.1 hpath
  exact ⟨e, h.entries ▸ he, by rw [heq, hnames]⟩

/-- Every path fits into a record. -/
theorem short (he : e ∈ packed.manifest.entries) : (utf8 e.path).length ≤ maxPathLength := by
  obtain ⟨content, item, -, hitem, offset, hread⟩ := h.exists_item htree he
  have hpath : e.path = item.path := hread.path
  rw [hpath]
  exact hitem.short

/-- A packed image can be written. -/
theorem encode : packed.encode = .ok (packed.manifest.layout packed.blob) := by
  have hencode := Manifest.encode_eq_ok_iff.2 ⟨h.valid, fun _ he => h.short htree he, rfl⟩
  rw [PackedImage.encode, hencode]
  rfl

/-- What was written is read back. -/
theorem parse (hcount : packed.manifest.size < byteCapacity 4) (hlimit : plan.options.maxTotalSize < byteCapacity 8) :
    Image.parse (packed.manifest.layout packed.blob) = .ok (.written packed.manifest packed.blob) :=
  Image.parse_written hcount (Nat.lt_of_le_of_lt h.fits hlimit) h.valid fun _ he => h.short htree he

end PackedImage.MadeFrom

end TreeImage
