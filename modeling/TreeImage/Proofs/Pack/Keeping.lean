import TreeImage.Proofs.Pack.Reading

set_option autoImplicit false

/-! # What a packed image holds

A packed image holds a directory or a regular file if nothing on the way to it is left out, and nothing else. The
blob is the content of the files, one after the other. -/

namespace TreeImage

open FileSystem

variable {fs : FileSystem} {options : PackOptions} {rules : IgnoreRules} {ignoreFile : Option Path}
  {root source : Path} {packed : PackedImage} {plan : WalkPlan} {top front : RealPath} {found : List SourceEntry}
  {read : List (Entry × Bytes)} {offset : Nat} {item : SourceEntry} {r : Entry × Bytes}

/-! ## What is kept -/

/-- A directory or a regular file below `top` is to be packed. It is not the ignore file, and neither it nor a
    directory on the way to it is a link or excluded by a rule. -/
structure IsKept (fs : FileSystem) (rules : IgnoreRules) (ignoreFile : Option Path) (top front : RealPath) :
    Prop where
  below : front ≠ []
  node : ∃ x, fs.get? (top ++ front) = some x ∧ (x.kind = .directory ∨ x.kind = .file)
  notIgnoreFile : ignoreFile ≠ some (RealPath.toPath (top ++ front))
  notLink : ∀ before, before ≠ [] → before <+: front → ∀ target, fs.get? (top ++ before) ≠ some (.symlink target)
  included : ∀ path, entryNames path <+: front →
    rules.isIgnored path (fs.isDirectoryAt (top ++ entryNames path)) = false

/-- The ignore file is no directory. -/
theorem exists_of_loadRules (htree : fs.IsTree) (h : loadRules fs root options = .ok (rules, ignoreFile)) :
    ∀ path ∈ ignoreFile, ∃ q : RealPath, path = q.toPath ∧ q.IsProper ∧ fs.isDirectoryAt q = false := by
  rintro path hpath
  unfold loadRules at h
  simp only at h
  split at h
  · cases h
  · cases h
    cases hpath
  next rules' hload =>
  split at h
  · cases h
  next real hreal =>
  cases h
  cases hpath
  cases hfind : fs.find true (options.ignoreFile.getD (root.push defaultIgnoreName)) with
  | error e =>
    rw [realPath, hfind] at hreal
    cases hreal
  | ok place =>
    obtain ⟨q, x⟩ := place
    rw [realPath, hfind] at hreal
    cases hreal
    have hget := (find_eq_ok_iff.1 hfind).2
    refine ⟨q, rfl, htree.isProper hget, ?_⟩
    -- a directory cannot be read
    rw [isDirectoryAt, hget]
    cases x with
    | directory mode =>
      rw [IgnoreRules.load, FileSystem.read, hfind] at hload
      cases hload
    | _ => rfl

/-- What the walk does not leave out is kept if it can be packed at all. -/
theorem not_excludes_iff_isKept (htree : plan.fs.IsTree)
    (hrules : loadRules plan.fs top.toPath plan.options = .ok (plan.rules, plan.skip)) {x : Node}
    (hget : plan.fs.get? (top ++ front) = some x) (hkind : x.kind = .directory ∨ x.kind = .file) (hne : front ≠ []) :
    ¬plan.Excludes top front ↔ IsKept plan.fs plan.rules plan.skip top front := by
  constructor
  · intro h
    have hkept : ∀ before, before ≠ [] → before <+: front → ¬plan.Omits top before :=
      fun before hbefore hpre homits => h ⟨before, hbefore, hpre, homits⟩
    refine ⟨hne, ⟨x, hget, hkind⟩, fun hskip => ?_, fun before hbefore hpre target hlink => ?_, fun path hpre => ?_⟩
    · refine hkept front hne List.prefix_rfl (.inl ?_)
      rw [hskip]
      exact beq_self_eq_true _
    · exact hkept before hbefore hpre (.inr (.inl ⟨target, hlink⟩))
    · rw [← Bool.not_eq_true]
      exact fun hyes => hkept _ (entryNames_ne_nil path) hpre (.inr (.inr ⟨path, rfl, hyes⟩))
  · rintro hkept ⟨before, hbefore, ⟨below, rfl⟩, hskip | ⟨target, hlink⟩ | ⟨path, rfl, hignored⟩⟩
    · have hproper : (top ++ before).IsProper :=
        (RealPath.isProper_append.1 (List.append_assoc .. ▸ htree.isProper hget)).1
      cases hfile : plan.skip with
      | none =>
        rw [hfile] at hskip
        cases hskip
      | some path =>
        obtain ⟨q, rfl, hq, hnot⟩ := exists_of_loadRules htree hrules path hfile
        rw [hfile, Option.any_some, RealPath.sameAs_toPath hq hproper] at hskip
        by_cases hbelow : below = []
        · rw [hbelow, List.append_nil] at hkept
          exact hkept.notIgnoreFile (by rw [hfile, hskip])
        · rw [← List.append_assoc] at hget
          rw [hskip, htree.closed.isDirectoryAt_of_prefix hbelow hget] at hnot
          cases hnot
    · exact hkept.notLink before hbefore (List.prefix_append _ _) target hlink
    · rw [hkept.included path (List.prefix_append _ _)] at hignored
      cases hignored

/-! ## What is packed -/

/-- The content of the file at a place. -/
def FileSystem.contentAt (fs : FileSystem) (q : RealPath) : Bytes := ((fs.get? q).map (·.content)).getD []

/-- What was read for an entry is the content of what stands at its place. -/
theorem ReadFrom.contentAt (htree : plan.fs.IsTree) (hitem : item.Stands plan top)
    (h : ReadFrom plan.fs offset item r) : plan.fs.contentAt (top ++ entryNames r.1.path) = r.2 := by
  obtain ⟨x, hget, -, hcontent, -⟩ := h.packedFrom htree hitem
  rw [FileSystem.contentAt, hget, hcontent]
  rfl

/-- A packed image holds what is kept below `top`, and all of it. -/
structure PackedImage.Captures (fs : FileSystem) (options : PackOptions) (rules : IgnoreRules)
    (ignoreFile : Option Path) (top : RealPath) (packed : PackedImage) : Prop where
  once : (packed.manifest.entries.map (·.path)).Nodup
  exact : ∀ front, (∃ e ∈ packed.manifest.entries, entryNames e.path = front) ↔
    IsKept fs rules ignoreFile top front
  entries : ∀ e ∈ packed.manifest.entries, ∃ x, fs.get? (top ++ entryNames e.path) = some x ∧
    PackedFrom e x.content x ∧ slice? packed.blob e.start e.stopWord = some x.content ∧
    e.mode = if options.preservePermissions then some (x.mode &&& modeMask) else none
  blob : packed.blob = packed.manifest.entries.flatMap fun e => fs.contentAt (top ++ entryNames e.path)
  gapless : ∀ before e after, packed.manifest.entries = before ++ e :: after → e.isFile = true →
    e.start = (before.flatMap fun e => fs.contentAt (top ++ entryNames e.path)).length ∧
      e.size.toNat = (fs.contentAt (top ++ entryNames e.path)).length
  fits : packed.blob.length ≤ options.maxTotalSize

namespace PackedImage.MadeFrom

variable (htree : plan.fs.IsTree) (h : packed.MadeFrom plan top found read)

include htree h

/-- What is in the manifest is what is kept. -/
theorem exists_entry_iff : (∃ e ∈ packed.manifest.entries, entryNames e.path = front) ↔
    IsKept plan.fs plan.rules plan.skip top front := by
  constructor
  · rintro ⟨e, he, rfl⟩
    obtain ⟨content, item, -, hitem, offset, hread⟩ := h.exists_item htree he
    obtain ⟨x, hget, hpacked, -⟩ := hread.packedFrom htree hitem
    have hkind : x.kind = .directory ∨ x.kind = .file := by
      cases hpacked with
      | directory _ => exact .inl rfl
      | file _ _ => exact .inr rfl
    exact (not_excludes_iff_isKept htree h.rules hget hkind (entryNames_ne_nil e.path)).1
      (h.not_excludes_of_mem htree he)
  · intro hkept
    obtain ⟨x, hget, hkind⟩ := hkept.node
    exact (h.complete htree hkept.below hget).resolve_left
      ((not_excludes_iff_isKept htree h.rules hget hkind hkept.below).2 hkept)

/-- The contents that were read are those of the places of the entries. -/
theorem contentAt (hr : r ∈ read) : plan.fs.contentAt (top ++ entryNames r.1.path) = r.2 := by
  obtain ⟨item, hitem, offset, hread⟩ := h.reads.exists_item hr
  exact hread.contentAt htree ((WalkPlan.walk_eq_ok htree h.start h.walk).1 item hitem).1

theorem captures (hlimit : plan.options.maxTotalSize < byteCapacity 8) :
    packed.Captures plan.fs plan.options plan.rules plan.skip top := by
  have hblob : packed.blob.length < byteCapacity 8 := Nat.lt_of_le_of_lt h.fits hlimit
  have hcontents : ∀ part : List (Entry × Bytes), part ⊆ read →
      (part.map (·.1)).flatMap (fun e => plan.fs.contentAt (top ++ entryNames e.path)) = part.flatMap (·.2) := by
    intro part hpart
    rw [List.flatMap_map]
    exact List.flatMap_congr fun r hr => h.contentAt htree (hpart hr)
  refine ⟨?_, fun front => h.exists_entry_iff htree, fun e he => h.packedFrom htree hblob he, ?_, ?_, h.fits⟩
  · rw [h.entries, h.reads.map_path]
    exact h.nodup_paths
  · rw [h.blob, h.entries, hcontents read fun _ => id]
  · intro before e after hsplit hfile
    rw [h.entries, List.map_eq_append_iff] at hsplit
    obtain ⟨before', rest, hread, rfl, hrest⟩ := hsplit
    obtain ⟨r, after', rfl, rfl, rfl⟩ := List.map_eq_cons_iff.1 hrest
    have hr : r ∈ read := by
      rw [hread]
      exact List.mem_append_right _ List.mem_cons_self
    obtain ⟨item, -, hfrom⟩ := (hread ▸ h.reads).split
    rw [h.contentAt htree hr, hcontents before' (hread ▸ List.subset_append_left _ _)]
    rw [Nat.zero_add] at hfrom
    refine hfrom.start_size hfile ?_
    rw [h.blob, hread, List.flatMap_append, List.flatMap_cons, List.length_append, List.length_append] at hblob
    omega

end PackedImage.MadeFrom

/-- **Packing captures exactly the kept tree.** If a directory is packed, every directory and regular file below it
    that is to be kept is in the manifest once, with its permission bits if these are preserved, and nothing else
    is. The blob is the content of the files in the order of the manifest, without gaps and within the limit, and
    the range and the digest of every file are those of its content. -/
theorem pack_captures (htree : fs.IsTree) (hlimit : options.maxTotalSize < byteCapacity 8)
    (h : pack fs options source = .ok packed) : ∃ top rules ignoreFile, fs.LeadsTo source top ∧
      loadRules fs top.toPath options = .ok (rules, ignoreFile) ∧
      packed.Captures fs options rules ignoreFile top := by
  obtain ⟨plan, top, found, read, rfl, rfl, hleads, hmade⟩ := pack_eq_ok htree h
  exact ⟨top, plan.rules, plan.skip, hleads, hmade.rules, hmade.captures htree hlimit⟩

/-- What a rule excludes is left out with all that lies below it, and so are links and the ignore file. -/
theorem pack_captures_ignoring :
    let fs : FileSystem := ⟨[([], .directory 0o755), ([utf8 "src"], .directory 0o755),
      ([utf8 "src", utf8 ".embedignore"], .file 0o644 (utf8 "x/\n")), ([utf8 "src", utf8 "d"], .directory 0o750),
      ([utf8 "src", utf8 "d", utf8 "f"], .file 0o600 [120]), ([utf8 "src", utf8 "l"], .symlink (utf8 "d")),
      ([utf8 "src", utf8 "x"], .directory 0o755), ([utf8 "src", utf8 "x", utf8 "g"], .file 0o644 [121])],
      [], .ofString "/bin/pack"⟩
    let options : PackOptions := { symlinks := .skip }
    let packed : PackedImage := ⟨⟨[.directory "d" (some 0o750), .file "d/f" 0 1 (.of [120]) (some 0o600)]⟩, [120],
      [.ofString "/src", .ofString "/src/.embedignore", .ofString "/src/d", .ofString "/src/d/f"]⟩
    (fs.IsTree ∧ options.maxTotalSize < byteCapacity 8 ∧ pack fs options (.ofString "/src") = .ok packed) ∧
    ∃ top rules ignoreFile, fs.LeadsTo (.ofString "/src") top ∧
      loadRules fs top.toPath options = .ok (rules, ignoreFile) ∧
      packed.Captures fs options rules ignoreFile top := by
  intro fs options packed
  have htree : fs.IsTree := isTree_of_checksTree (by decide)
  have hlimit : options.maxTotalSize < byteCapacity 8 := by decide
  let rules : IgnoreRules := ⟨[⟨⟨[.literal 'x']⟩, false, true, false⟩]⟩
  have hrules : loadRules fs (.ofString "/src") options = .ok (rules, some (.ofString "/src/.embedignore")) := by
    cbv
  have hwalk : WalkPlan.walk ⟨fs, rules, some (.ofString "/src/.embedignore"), options⟩ (.ofString "/src") =
      .ok [⟨"d", .ofString "/src/d", .directory, some 0o750⟩,
        ⟨"d/f", .ofString "/src/d/f", .file, some 0o600⟩] := by cbv
  have hvalid : ∀ digest, Manifest.validate ⟨[.directory "d" (some 0o750), .file "d/f" 0 1 digest (some 0o600)]⟩ 1 =
      .ok () := by
    intro digest
    cbv
  have hpack : pack fs options (.ofString "/src") = .ok packed :=
    pack_of_turns rfl (by decide) hrules hwalk rfl (hvalid _)
  exact ⟨⟨htree, hlimit, hpack⟩, pack_captures htree hlimit hpack⟩
end TreeImage
