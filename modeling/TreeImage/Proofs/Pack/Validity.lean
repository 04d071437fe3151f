import TreeImage.Proofs.Manifest.Canonical
import TreeImage.Proofs.Pack.Ancestry
import TreeImage.Proofs.Pack.Reading

set_option autoImplicit false

/-! # Packed images are valid

The checks on manifests know nothing of the walk that a manifest came from. Still a walk finds nothing that they
refuse: its order is the canonical one, it finds every entry once and with its directory, and the content of the
files lies in the blob in turn. So packing never fails at the checks, and what was packed is read back. -/

namespace TreeImage

open FileSystem

variable {fs : FileSystem} {options : PackOptions} {root source : Path} {packed : PackedImage} {plan : WalkPlan}
  {top : RealPath} {a b item : SourceEntry} {items found : List SourceEntry} {r : Entry × Bytes}
  {read : List (Entry × Bytes)} {offset limit : Nat} {d e : Entry} {m : Manifest} {blobLength : Nat}

/-! ## Canonical order -/

instance SourceEntry.transCmp_order : Std.TransCmp SourceEntry.order :=
  inferInstanceAs (Std.TransCmp (compareLex (compareOn SourceEntry.kind) (compareOn fun item => utf8 item.path)))

/-- Entries between which there is no order have one path. -/
theorem SourceEntry.path_eq_of_order (h : a.order b = .eq) : a.path = b.path := by
  rw [order, Ordering.then_eq_eq] at h
  exact utf8_injective (Std.compare_eq_iff_eq.1 h.2)

/-- What is found is in canonical order, each entry strictly before those that follow. -/
theorem WalkPlan.walk_sorted (h : plan.walk root = .ok found) (honce : (found.map (·.path)).Nodup) :
    found.Pairwise fun a b => a.order b = .lt := by
  obtain ⟨s, -, rfl⟩ := exists_enter_of_walk h
  exact pairwise_lt_mergeSort_order SourceEntry.order SourceEntry.path SourceEntry.path_eq_of_order
    (((List.mergeSort_perm _ _).map SourceEntry.path).nodup_iff.1 honce)

/-- A directory comes before what lies in it. -/
theorem Entry.order_of_parent (hdir : d.isDirectory = true) (hparent : parentPath? e.path = some d.path) :
    d.order e = .lt := by
  rw [Entry.order_eq_lt_iff]
  cases hkind : e.kind with
  | file => exact .inl ⟨hdir, beq_iff_eq.2 hkind⟩
  | directory =>
    refine .inr ⟨beq_iff_eq.1 hdir, ?_⟩
    have hpath : e.path = d.path ++ ("/" ++ lastSegment e.path) := by
      rw [← String.toList_inj, parentPath?_eq_some hparent, String.toList_append, String.toList_append]
      rfl
    have hslash : utf8 "/" = [slash] := by decide
    have hlt : utf8 d.path ++ [] < utf8 d.path ++ slash :: utf8 (lastSegment e.path) :=
      List.append_left_lt (List.nil_lt_cons _ _)
    rw [hpath, utf8_append, utf8_append, hslash, List.singleton_append]
    rwa [List.append_nil] at hlt

namespace Manifest

/-- The entries are in canonical order, every path comes once, and the parent of every path is the path of a
    directory. -/
structure Ordered (m : Manifest) : Prop where
  once : (m.entries.map (·.path)).Nodup
  sorted : m.entries.Pairwise fun a b => a.order b = .lt
  parents : ∀ e ∈ m.entries, ∀ parent, parentPath? e.path = some parent →
    ∃ d ∈ m.entries, d.isDirectory = true ∧ d.path = parent

/-- In canonical order a directory stands before the entries that lie in it. -/
theorem Ordered.exists_parent_before (h : m.Ordered) {before after : List Entry}
    (hsplit : m.entries = before ++ e :: after) {parent : String} (hparent : parentPath? e.path = some parent) :
    ∃ d ∈ before, d.isDirectory = true ∧ d.path = parent := by
  obtain ⟨d, hd, hdir, rfl⟩ := h.parents e (hsplit ▸ List.mem_append_right _ List.mem_cons_self) parent hparent
  have hlt := Entry.order_of_parent hdir hparent
  have hsorted := h.sorted
  rw [hsplit] at hd hsorted
  obtain ⟨-, hafter, -⟩ := List.pairwise_append.1 hsorted
  rcases List.mem_append.1 hd with hd | hd
  · exact ⟨d, hd, hdir, rfl⟩
  -- an entry is not before itself, and not before one that it follows
  have hirrefl : d.order d ≠ .lt := fun h => by
    rcases Entry.order_eq_lt_iff.1 h with ⟨-, hfile⟩ | ⟨-, hlt⟩
    · rw [Entry.isDirectory_eq_not_isFile, hfile] at hdir
      cases hdir
    · exact List.lt_irrefl _ hlt
  rcases List.mem_cons.1 hd with rfl | hd
  · exact absurd hlt hirrefl
  · exact absurd (Entry.order_trans hlt ((List.pairwise_cons.1 hafter).1 d hd)) hirrefl

/-- The checks accept entries in canonical order whose content lies in the blob in turn. -/
theorem Ordered.validate (h : m.Ordered) (hpresent : ∀ e ∈ m.entries, e.path ≠ "")
    (hfits : ∀ e ∈ m.entries, e.FitsIn blobLength)
    (hturns : m.entries.Pairwise fun a b => a.isFile = true → b.isFile = true → a.stop ≤ b.start) :
    m.validate blobLength = .ok () := by
  refine validate_eq_ok_iff.2 ⟨?_, ?_, ?_⟩
  · exact checkEntries_eq_ok_iff.2 ⟨hpresent, hfits, h.once, fun _ _ => nofun, h.sorted.isChain⟩
  · refine checkDisjoint_byOffset_eq_ok_iff.2 ?_
    refine List.Pairwise.filter _ (List.pairwise_filter.2 (hturns.imp fun h ha hb => ?_))
    exact Set.Ico_disjoint_Ico.2 ((min_le_left _ _).trans ((h ha hb).trans (le_max_right _ _)))
  · refine checkParents_eq_ok_iff.2 fun before e after hsplit parent hneeded => ?_
    rw [List.append_nil]
    obtain ⟨d, hd, hdirectory⟩ := h.exists_parent_before hsplit (neededParent?_eq_some_iff.1 hneeded).1
    exact ⟨d, List.mem_reverse.2 hd, hdirectory⟩

end Manifest

/-! ## What was read -/

namespace ReadsAs

/-- Reading keeps kinds and paths, and so the order. -/
theorem map_kind_path (h : ReadsAs fs offset items read) :
    read.map (fun r => (r.1.kind, r.1.path)) = items.map fun item => (item.kind, item.path) := by
  induction h with
  | nil _ => rfl
  | cons first _ ih =>
    rw [List.map_cons, List.map_cons, ih]
    cases first with
    | directory hkind => rw [hkind]; rfl
    | file hkind _ => rw [hkind]; rfl

theorem pairwise_order (h : ReadsAs fs offset items read) (hsorted : items.Pairwise fun a b => a.order b = .lt) :
    (read.map (·.1)).Pairwise fun a b => a.order b = .lt := by
  let before := fun a b : EntryKind × String => (compare a.1 b.1).then (compare (utf8 a.2) (utf8 b.2)) = .lt
  have hkeys : (read.map fun r => (r.1.kind, r.1.path)).Pairwise before := by
    rw [h.map_kind_path]
    exact List.pairwise_map.2 hsorted
  exact List.pairwise_map.2 (List.pairwise_map.1 hkeys)

/-- Content lies where it was put. -/
theorem bounds (h : ReadsAs fs offset items read)
    (hfits : offset + (read.flatMap (·.2)).length < byteCapacity 8) : ∀ r ∈ read, r.1.isFile = true →
      offset ≤ r.1.start ∧ r.1.stop ≤ offset + (read.flatMap (·.2)).length := by
  intro r hr hfile
  obtain ⟨before, after, rfl⟩ := List.append_of_mem hr
  obtain ⟨item, -, hread⟩ := h.split
  rw [List.flatMap_append, List.flatMap_cons, List.length_append, List.length_append] at hfits ⊢
  obtain ⟨hstart, hsize⟩ := hread.start_size hfile (by omega)
  rw [Entry.stop, ← Entry.start, hstart, hsize]
  omega

/-- Each content ends before the next begins. -/
theorem pairwise_turns (h : ReadsAs fs offset items read)
    (hfits : offset + (read.flatMap (·.2)).length < byteCapacity 8) :
    read.Pairwise fun a b => a.1.isFile = true → b.1.isFile = true → a.1.stop ≤ b.1.start := by
  induction h with
  | nil _ => exact .nil
  | @cons offset item items r read first rest ih =>
    rw [List.flatMap_cons, List.length_append] at hfits
    refine .cons (fun r' hr' hfile hfile' => ?_) (ih (by omega))
    obtain ⟨hstart, hsize⟩ := first.start_size hfile (by omega)
    rw [Entry.stop, ← Entry.start, hstart, hsize]
    exact (rest.bounds (by omega) r' hr' hfile').1

theorem fitsIn (h : ReadsAs fs 0 items read) (hfits : (read.flatMap (·.2)).length < byteCapacity 8) :
    ∀ r ∈ read, r.1.FitsIn (read.flatMap (·.2)).length := by
  intro r hr
  refine ⟨fun hdir => ?_, fun hfile => ?_⟩
  · obtain ⟨item, -, offset, hread⟩ := h.exists_item hr
    cases hread with
    | directory _ => exact ⟨rfl, rfl, rfl⟩
    | file _ _ => cases hdir
  · have hstop := (h.bounds (by rwa [Nat.zero_add]) r hr hfile).2
    rwa [Nat.zero_add, Entry.stop, ← Entry.start] at hstop

end ReadsAs

/-! ## What was collected -/

namespace WalkPlan.Collects

variable (htree : plan.fs.IsTree) (hsingle : (plan.fs.nodes.map Prod.fst).Nodup) (h : plan.Collects top found read)

include htree hsingle h

/-- A walk finds entries in canonical order, once each and with their directories. -/
theorem ordered : Manifest.Ordered ⟨read.map (·.1)⟩ := by
  obtain ⟨honce, hparents⟩ := walk_tidy htree hsingle h.start h.walk
  refine ⟨?_, h.reads.pairwise_order (walk_sorted h.walk honce), fun e he parent hparent => ?_⟩
  · show ((read.map (·.1)).map (·.path)).Nodup
    rwa [h.reads.map_path]
  · obtain ⟨r, hr, rfl⟩ := List.mem_map.1 he
    obtain ⟨item, hitem, offset, hread⟩ := h.reads.exists_item hr
    rw [hread.path] at hparent
    rcases hparents item hitem _ _ (entryNames_of_parentPath? hparent) with hnil | ⟨p, hp, hkind, hnames⟩
    · exact absurd hnil (entryNames_ne_nil parent)
    have hkey : (p.kind, p.path) ∈ read.map fun r => (r.1.kind, r.1.path) := by
      rw [h.reads.map_kind_path]
      exact List.mem_map_of_mem hp
    obtain ⟨r', hr', heq⟩ := List.mem_map.1 hkey
    obtain ⟨hkind', hpath⟩ := Prod.mk.inj heq
    exact ⟨r'.1, List.mem_map_of_mem hr', beq_iff_eq.2 (hkind'.trans hkind), hpath.trans (entryNames_injective hnames)⟩

/-- What was collected passes the checks. -/
theorem validate (hlimit : plan.options.maxTotalSize < byteCapacity 8) :
    Manifest.validate ⟨read.map (·.1)⟩ (read.flatMap (·.2)).length = .ok () := by
  have hfits : (read.flatMap (·.2)).length < byteCapacity 8 := Nat.lt_of_le_of_lt h.within hlimit
  refine (h.ordered htree hsingle).validate (fun e he hempty => ?_) (fun e he => ?_) ?_
  · obtain ⟨r, hr, rfl⟩ := List.mem_map.1 he
    obtain ⟨item, hitem, offset, hread⟩ := h.reads.exists_item hr
    obtain ⟨x, hget, -⟩ := ((walk_eq_ok htree h.start h.walk).1 item hitem).1.node
    rw [← hread.path, hempty] at hget
    -- a name is not empty
    have hname := (htree.forall_mem hget [] (List.mem_append_right _ (by decide))).1
    exact hname.1 rfl
  · obtain ⟨r, hr, rfl⟩ := List.mem_map.1 he
    exact h.reads.fitsIn hfits r hr
  · exact List.pairwise_map.2 (h.reads.pairwise_turns (by rwa [Nat.zero_add]))

end WalkPlan.Collects

/-! ## Packed images -/

/-- A packed image is written and read back. -/
theorem PackedImage.MadeFrom.decode (htree : plan.fs.IsTree) (h : packed.MadeFrom plan top found read)
    (hlimit : plan.options.maxTotalSize < byteCapacity 8) (hcount : packed.manifest.size < byteCapacity 4) :
    ∃ bytes d, packed.encode = .ok bytes ∧ TreeImage.decode bytes = .ok d ∧ d.manifest = packed.manifest ∧
      slice? bytes d.blobStart (d.blobStart + d.blobLength) = some packed.blob := by
  obtain ⟨d, hd, himage⟩ := except_map_eq_ok.1 (h.parse htree hcount hlimit)
  obtain ⟨-, hmanifest, hstart, hlength⟩ := Image.mk.inj himage
  refine ⟨_, d, h.encode htree, hd, hmanifest, ?_⟩
  rw [hstart, hlength, packed.manifest.layout_eq_imageAround]
  exact slice?_imageAround _ _ _

/-- **The packer only makes valid images.** Packing never fails at the checks on manifests. What is packed is in
    canonical order, with the parent of every entry among the directories before it, and if there are no more entries
    than an image can count, the image can be written, and is read back as the same manifest and the same blob. -/
theorem pack_valid (htree : fs.IsTree) (hsingle : (fs.nodes.map Prod.fst).Nodup)
    (hlimit : options.maxTotalSize < byteCapacity 8) :
    (∀ e, pack fs options source ≠ .error (.format e)) ∧
    ∀ packed, pack fs options source = .ok packed →
      packed.manifest.entries.Pairwise (fun a b => a.order b = .lt) ∧
      (∀ before e after, packed.manifest.entries = before ++ e :: after → ∀ parent,
        parentPath? e.path = some parent → ∃ d ∈ before, d.isDirectory = true ∧ d.path = parent) ∧
      (packed.manifest.size < byteCapacity 4 → ∃ bytes d, packed.encode = .ok bytes ∧ decode bytes = .ok d ∧
        d.manifest = packed.manifest ∧
        slice? bytes d.blobStart (d.blobStart + d.blobLength) = some packed.blob) := by
  refine ⟨fun e herror => ?_, fun packed hpack => ?_⟩
  · rcases pack_cases htree options source with ⟨e', herror', hother⟩ | ⟨plan, top, found, read, sources, rfl, rfl, -,
      hcollects, hresult⟩
    · cases herror.symm.trans herror'
      cases hother
    · rw [hcollects.validate htree hsingle hlimit] at hresult
      cases herror.symm.trans hresult
  · obtain ⟨plan, top, found, read, rfl, rfl, -, hmade⟩ := pack_eq_ok htree hpack
    have hordered : packed.manifest.Ordered := by
      have h := hmade.ordered htree hsingle
      rwa [← hmade.entries] at h
    exact ⟨hordered.sorted, fun before e after hsplit parent => hordered.exists_parent_before hsplit,
      hmade.decode htree hlimit⟩

/-- A directory that a rule includes again stays out when the directory that it lies in does. -/
theorem pack_valid_negated :
    let fs : FileSystem := ⟨[([], .directory 0o755), ([utf8 "src"], .directory 0o755),
      ([utf8 "src", utf8 ".embedignore"], .file 0o644 (utf8 "x/\n!g/\n")), ([utf8 "src", utf8 "d"], .directory 0o750),
      ([utf8 "src", utf8 "d", utf8 "f"], .file 0o600 [120]), ([utf8 "src", utf8 "x"], .directory 0o755),
      ([utf8 "src", utf8 "x", utf8 "g"], .directory 0o755)], [], .ofString "/bin/pack"⟩
    let packed : PackedImage := ⟨⟨[.directory "d" (some 0o750), .file "d/f" 0 1 (.of [120]) (some 0o600)]⟩, [120],
      [.ofString "/src", .ofString "/src/.embedignore", .ofString "/src/d", .ofString "/src/d/f"]⟩
    (fs.IsTree ∧ (fs.nodes.map Prod.fst).Nodup ∧ ({} : PackOptions).maxTotalSize < byteCapacity 8 ∧
      pack fs {} (.ofString "/src") = .ok packed ∧ packed.manifest.size < byteCapacity 4) ∧
    (∀ e, pack fs {} (.ofString "/src") ≠ .error (.format e)) ∧
    packed.manifest.entries.Pairwise (fun a b => a.order b = .lt) ∧
    ∃ bytes d, packed.encode = .ok bytes ∧ decode bytes = .ok d ∧ d.manifest = packed.manifest ∧
      slice? bytes d.blobStart (d.blobStart + d.blobLength) = some packed.blob := by
  intro fs packed
  have htree : fs.IsTree := isTree_of_checksTree (by decide)
  have hsingle : (fs.nodes.map Prod.fst).Nodup := by decide
  have hlimit : ({} : PackOptions).maxTotalSize < byteCapacity 8 := by decide
  have hrules : loadRules fs (.ofString "/src") {} = .ok (⟨[⟨⟨[.literal 'x']⟩, false, true, false⟩,
      ⟨⟨[.literal 'g']⟩, true, true, false⟩]⟩, some (.ofString "/src/.embedignore")) := by cbv
  have hwalk : WalkPlan.walk ⟨fs, ⟨[⟨⟨[.literal 'x']⟩, false, true, false⟩, ⟨⟨[.literal 'g']⟩, true, true, false⟩]⟩,
      some (.ofString "/src/.embedignore"), {}⟩ (.ofString "/src") = .ok [⟨"d", .ofString "/src/d", .directory,
        some 0o750⟩, ⟨"d/f", .ofString "/src/d/f", .file, some 0o600⟩] := by cbv
  have hvalid : ∀ digest, Manifest.validate ⟨[.directory "d" (some 0o750), .file "d/f" 0 1 digest (some 0o600)]⟩ 1 =
      .ok () := by
    intro digest
    cbv
  have hpack : pack fs {} (.ofString "/src") = .ok packed :=
    pack_of_turns rfl (by decide) hrules hwalk rfl (hvalid _)
  have hcount : packed.manifest.size < byteCapacity 4 := by decide
  obtain ⟨hnever, hall⟩ := pack_valid htree hsingle hlimit
  obtain ⟨hsorted, -, hread⟩ := hall packed hpack
  exact ⟨⟨htree, hsingle, hlimit, hpack, hcount⟩, hnever, hsorted, hread hcount⟩

end TreeImage
