import TreeImage.Proofs.Extract.FreshRun
import TreeImage.Proofs.Extract.Success
import TreeImage.Proofs.Pack.Paths

set_option autoImplicit false

/-! # Packing and unpacking a tree

A directory without links from which nothing is left out is packed whole, and its image is unpacked whole. What
stands below the target afterwards is what stood below the source, with the permission bits that it had there.
There is one gap: a temporary file has a longer name than the file that it becomes, so a file whose own name is
nearly as long as names can be is packed but cannot be unpacked. -/

namespace TreeImage

open FileSystem

variable {fs there : FileSystem} {packing : PackOptions} {options : ExtractOptions} {source root : Path}
  {packed : PackedImage} {plan : WalkPlan} {top real front : RealPath} {found : List SourceEntry}
  {read : List (Entry × Bytes)} {e : Entry} {content : Bytes} {x : Node} {o : Outcome}

/-! ## What is packed -/

/-- A directory all of which is packed: no link lies below it, and there is no ignore file. -/
structure PackedWhole (fs : FileSystem) (packing : PackOptions) (top : RealPath) : Prop where
  noLinks : NoLinksBelow top fs
  noRules : IgnoreRules.load fs (packing.ignoreFile.getD (top.toPath.push defaultIgnoreName)) = .ok none

namespace PackedImage.MadeFrom

variable (h : packed.MadeFrom plan top found read)

include h

/-- Without links and rules nothing is left out. -/
theorem not_excludes (hwhole : PackedWhole plan.fs plan.options top) : ¬plan.Excludes top front := by
  have hrules := h.rules
  unfold loadRules at hrules
  simp only [hwhole.noRules] at hrules
  obtain ⟨hrules, hskip⟩ := Prod.mk.inj (Except.ok.inj hrules)
  rintro ⟨before, hne, -, homits⟩
  rcases homits with hsame | ⟨target, hlink⟩ | ⟨path, -, hignored⟩
  · rw [← hskip] at hsame
    cases hsame
  · exact hwhole.noLinks _ target (contains_append hne) hlink
  · rw [← hrules] at hignored
    cases hignored

variable (htree : plan.fs.IsTree)

include htree

/-- Directories have names that a directory can hold, and where paths are accepted the image can be unpacked. -/
theorem unpackable (hcount : packed.manifest.size < byteCapacity 4)
    (haccepted : ∀ e ∈ packed.manifest.entries, ∃ p, TreeImage.sanitize root e.path = .ok p) :
    (Image.written packed.manifest packed.blob).Unpackable root := by
  refine ⟨⟨_, h.valid⟩, hcount, haccepted, fun e he _ => ?_⟩
  obtain ⟨content, item, -, hitem, offset, hread⟩ := h.exists_item htree he
  have hpath : e.path = item.path := hread.path
  obtain ⟨x, hget, -⟩ := hitem.node
  obtain ⟨front, hfront⟩ := e.exists_names
  rw [← hpath, hfront] at hget
  have hname : e.name ∈ top ++ (front ++ [e.name]) := by simp
  exact (htree.forall_mem hget _ hname).2.2

end PackedImage.MadeFrom

/-! ## What is unpacked -/

/-- The content of an entry of a written image is where the entry says. -/
theorem Image.content_written {m : Manifest} {blob : Bytes} (h : slice? blob e.start e.stopWord = some content) :
    (Image.written m blob).content e = content := by
  have hblob : (Image.written m blob).blob = blob := by
    have hslice := slice?_imageAround m (m.entries.flatMap Entry.encode) blob
    rw [← m.layout_eq_imageAround] at hslice
    exact congrArg (·.getD []) hslice
  rw [Image.content, hblob, h]
  rfl

/-- The name of a file is too long for that of its temporary file. -/
def Entry.IsCrowded (e : Entry) : Prop := e.isFile = true ∧ stagedNameLimit < e.name.length

/-- The outcome of an entry that was packed, when nothing was at its home. -/
inductive Entry.EndsIn (e : Entry) : Outcome → Prop
  | created (hfits : ¬e.IsCrowded) : EndsIn e .created
  | failed {message : String} (hcrowded : e.IsCrowded) : EndsIn e (.failed .write message)

/-- What is there again of a node called `n` that was packed: the node with its permission bits, but nothing of a
    file whose name is too long for that of its temporary file. -/
def Node.unpacked? (x : Node) (n : Name) : Option Node :=
  match x with
  | .directory mode => some (.directory (mode &&& modeMask))
  | .file mode content =>
    if stagedNameLimit < n.length then none else some (.file (mode &&& modeMask) content)
  | _ => none

/-- What is unpacked of an entry is what it was packed from. -/
theorem Unpacked.of_packed {v : Option Node} (h : Unpacked e content o v) (hx : PackedFrom e content x)
    (hmode : e.mode = some (x.mode &&& modeMask)) : e.EndsIn o ∧ v = x.unpacked? e.name := by
  have hmask : x.mode &&& modeMask &&& modeMask = x.mode &&& modeMask := by
    rw [UInt32.and_assoc, UInt32.and_self]
  cases hx with
  | directory hdirectory =>
    have hfits : ¬e.IsCrowded := fun hcrowded => by simp [Entry.IsCrowded, hdirectory] at hcrowded
    cases h with
    | directory _ hrecorded =>
      rw [hrecorded _ hmode, hmask]
      exact ⟨.created hfits, rfl⟩
    | _ => simp_all
  | file hfile hsame =>
    cases h with
    | directory hdirectory _ => simp_all
    | file _ hshort _ hrecorded =>
      have hfits : ¬stagedNameLimit < e.name.length := Nat.not_lt.2 hshort
      rw [hrecorded _ hmode, hmask]
      exact ⟨.created fun hcrowded => hfits hcrowded.2, (if_neg hfits).symm⟩
    | crowded _ hlong => exact ⟨.failed ⟨hfile, hlong⟩, (if_pos hlong).symm⟩
    | corrupt _ _ hdigest => exact absurd hsame.symm hdigest

/-! ## There and back -/

theorem Entry.EndsIn.isFailure_eq_false_iff (h : e.EndsIn o) : o.isFailure = false ↔ ¬e.IsCrowded := by
  cases h with
  | created hfits => simp [Outcome.isFailure, hfits]
  | failed hcrowded => simp [Outcome.isFailure, hcrowded]

/-- The report is about what was packed: every entry is created but for files with names that are too long, and
    below the real root stands what stood below `top`, and nothing else. -/
structure Report.Restores (packed : PackedImage) (fs : FileSystem) (top : RealPath) (fs' : FileSystem)
    (real : RealPath) (report : Report) : Prop where
  entries : List.Forall₂ (fun e r => r.path = e.path ∧ r.kind = e.kind ∧ e.EndsIn r.outcome)
    packed.manifest.entries report.entries
  success : report.status = .success ↔ ∀ e ∈ packed.manifest.entries, ¬e.IsCrowded
  nodes : ∀ front n, fs'.get? (real ++ (front ++ [n])) = (fs.get? (top ++ (front ++ [n]))).bind (·.unpacked? n)

/-- What a fresh run makes of a packed image is what was packed. -/
theorem PackedImage.MadeFrom.restores (h : packed.MadeFrom plan top found read) (htree : plan.fs.IsTree)
    (hwhole : PackedWhole plan.fs plan.options top) (hpreserve : plan.options.preservePermissions = true)
    (hlimit : plan.options.maxTotalSize < byteCapacity 8) {entries : List EntryReport} {bytesWritten : Nat}
    {cancelled : Bool} (hunpacks : Report.Unpacks (.written packed.manifest packed.blob) real there
      (.new root entries bytesWritten cancelled)) :
    Report.Restores packed plan.fs top there real (.new root entries bytesWritten cancelled) := by
  have hentry : ∀ e ∈ packed.manifest.entries, ∃ x content, plan.fs.get? (top ++ entryNames e.path) = some x ∧
      PackedFrom e content x ∧ e.mode = some (x.mode &&& modeMask) ∧
      (Image.written packed.manifest packed.blob).content e = content := by
    intro e he
    obtain ⟨x, hget, hpacked, hslice, hmode⟩ := h.packedFrom htree (Nat.lt_of_le_of_lt h.fits hlimit) he
    rw [if_pos hpreserve] at hmode
    exact ⟨x, x.content, hget, hpacked, hmode, Image.content_written hslice⟩
  have hends : List.Forall₂ (fun e r => r.path = e.path ∧ r.kind = e.kind ∧ e.EndsIn r.outcome ∧
      ∃ x, plan.fs.get? (top ++ entryNames e.path) = some x ∧
        there.get? (e.home real) = x.unpacked? e.name) packed.manifest.entries entries := by
    refine (((List.forall₂_and_left _ _).2 ⟨hentry, hunpacks.entries⟩)).imp ?_
    rintro e r ⟨⟨x, content, hget, hpacked, hmode, rfl⟩, hpath, hkind, hunpacked⟩
    obtain ⟨hends, hnode⟩ := hunpacked.of_packed hpacked hmode
    exact ⟨hpath, hkind, hends, x, hget, hnode⟩
  refine ⟨hends.imp fun e r ⟨hpath, hkind, hend, _⟩ => ⟨hpath, hkind, hend⟩, ?_, fun front n => ?_⟩
  · rw [Report.status_new_eq_success_iff]
    constructor
    · intro hfine e he
      obtain ⟨r, hr, -, -, hend, -⟩ := exists_of_forall₂ hends.flip he
      exact hend.isFailure_eq_false_iff.1 (hfine r hr)
    · intro hfits r hr
      obtain ⟨e, he, -, -, hend, -⟩ := exists_of_forall₂ hends hr
      exact hend.isFailure_eq_false_iff.2 (hfits e he)
  · have hne : front ++ [n] ≠ [] := by simp
    cases hget : plan.fs.get? (top ++ (front ++ [n])) with
    | none =>
      refine hunpacks.other _ (contains_append hne) fun e he heq => ?_
      obtain ⟨x, content, hthere, -⟩ := hentry e he
      rw [← List.append_cancel_left heq, hget] at hthere
      cases hthere
    | some x =>
      obtain ⟨e, he, hnames⟩ := (h.complete htree hne hget).resolve_left (h.not_excludes hwhole)
      obtain ⟨r, -, -, -, -, x', hget', hnode⟩ := exists_of_forall₂ hends.flip he
      obtain ⟨front', hfront'⟩ := e.exists_names
      obtain ⟨-, hname⟩ := List.append_inj' (hfront'.symm.trans hnames) rfl
      rw [hnames, hget] at hget'
      rw [Entry.home, hnames, List.singleton_inj.1 hname] at hnode
      rw [hnode, ← Option.some.inj hget']
      rfl

section Run

variable (hlimit : packing.maxTotalSize < byteCapacity 8) (hcount : packed.manifest.size < byteCapacity 4)
  (hquiet : options.IsQuiet) (hnever : options.NeverCancels) (hstop : options.stopOnFirstError = false)
  (hfilter : options.filter = none) (schedule : List Nat) {target : Option Path} (hclosed : there.IsClosed)
  (hroot : resolveRoot there.cwd.toPath there.executable options.defaultRoot target = .ok root)
  (hfresh : FreshTarget there root) (haccepted : ∀ e ∈ packed.manifest.entries, ∃ p, sanitize root e.path = .ok p)
  (hapart : 1 < options.workers → PathsApart packed.manifest.files)

include hlimit hcount hquiet hnever hstop hfilter hclosed hroot hfresh haccepted hapart

/-- A packed image is written, read back and unpacked. -/
theorem run_extractBytes_pack (htree : fs.IsTree) (hsource : fs.LeadsTo source top)
    (hwhole : PackedWhole fs packing top) (hpreserve : packing.preservePermissions = true)
    (hpack : pack fs packing source = .ok packed) :
    ∃ bytes report s real, packed.encode = .ok bytes ∧
      extractBytes options schedule bytes target (.start there options) = (.ok report, s) ∧
      report.target = root ∧ s.fs.LeadsTo root real ∧ report.Restores packed fs top s.fs real := by
  obtain ⟨plan, top', found, read, rfl, rfl, hleads, hmade⟩ := pack_eq_ok htree hpack
  obtain rfl := hleads.unique hsource
  obtain ⟨entries, bytesWritten, cancelled, s, real, hrun, hreal, hunpacks⟩ := run_extract_fresh_new
    (hmade.unpackable htree hcount haccepted) hquiet hnever hstop hfilter hapart schedule hclosed hroot hfresh
  refine ⟨_, _, s, real, hmade.encode htree, ?_, rfl, hreal, hmade.restores htree hwhole hpreserve hlimit hunpacks⟩
  rw [extractBytes, hmade.parse htree hcount hlimit]
  exact hrun

end Run

/-- **Round trip, exactly.** A directory without links and ignore file, packed with its permission bits, and
    extracted into a target that is absent or an empty directory by a run that nothing stops, stands there again: the
    same paths, kinds, contents and permission bits, and nothing else. Every entry is created, but for files with
    names that are too long for temporary files. Paths must be accepted, and temporary files of several workers must
    not have the names of files of the tree. -/
theorem pack_extract_restores {fs there : FileSystem} (htree : fs.IsTree) {packing : PackOptions} {source : Path}
    {top : RealPath} (hsource : fs.LeadsTo source top) (hwhole : PackedWhole fs packing top)
    (hpreserve : packing.preservePermissions = true) (hlimit : packing.maxTotalSize < byteCapacity 8)
    {packed : PackedImage} (hpack : pack fs packing source = .ok packed)
    (hcount : packed.manifest.size < byteCapacity 4) {options : ExtractOptions} (hquiet : options.IsQuiet)
    (hnever : options.NeverCancels) (hstop : options.stopOnFirstError = false) (hfilter : options.filter = none)
    (schedule : List Nat) {target : Option Path} (hclosed : there.IsClosed) {root : Path}
    (hroot : resolveRoot there.cwd.toPath there.executable options.defaultRoot target = .ok root)
    (hfresh : FreshTarget there root) (haccepted : ∀ e ∈ packed.manifest.entries, ∃ p, sanitize root e.path = .ok p)
    (hapart : 1 < options.workers → PathsApart packed.manifest.files) :
    ∃ bytes report s real, packed.encode = .ok bytes ∧
      extractBytes options schedule bytes target (.start there options) = (.ok report, s) ∧
      report.target = root ∧ s.fs.LeadsTo root real ∧ report.Restores packed fs top s.fs real :=
  run_extractBytes_pack hlimit hcount hquiet hnever hstop hfilter schedule hclosed hroot hfresh haccepted hapart
    htree hsource hwhole hpreserve hpack

/-- The eight workers of a run with default options unpack a tree that was packed next to the target. -/
theorem pack_extract_restores_tree :
    let fs : FileSystem := ⟨[([], .directory 0o755), ([utf8 "out"], .directory 0o755), ([utf8 "src"], .directory 0o755),
      ([utf8 "src", utf8 "d"], .directory 0o2750), ([utf8 "src", utf8 "d", utf8 "f"], .file 0o600 [120]),
      ([utf8 "src", utf8 "g"], .file 0o444 [121, 122])], [], .ofString "/bin/pack"⟩
    let packed : PackedImage := ⟨⟨[.directory "d" (some 0o2750), .file "d/f" 0 1 (.of [120]) (some 0o600),
      .file "g" 1 2 (.of [121, 122]) (some 0o444)]⟩, [120, 121, 122],
      [.ofString "/src", .ofString "/src/d", .ofString "/src/d/f", .ofString "/src/g"]⟩
    let options : ExtractOptions := {}
    (fs.IsTree ∧ fs.LeadsTo (.ofString "/src") [utf8 "src"] ∧ PackedWhole fs {} [utf8 "src"] ∧
      pack fs {} (.ofString "/src") = .ok packed ∧ packed.manifest.size < byteCapacity 4 ∧
      options.IsQuiet ∧ options.NeverCancels ∧
      resolveRoot fs.cwd.toPath fs.executable options.defaultRoot (some (.ofString "/out")) = .ok (.ofString "/out") ∧
      FreshTarget fs (.ofString "/out") ∧
      (∀ e ∈ packed.manifest.entries, ∃ p, sanitize (.ofString "/out") e.path = .ok p) ∧
      PathsApart packed.manifest.files) ∧
    ∃ bytes report s real, packed.encode = .ok bytes ∧
      extractBytes options [0, 1, 1, 0] bytes (some (.ofString "/out")) (.start fs options) = (.ok report, s) ∧
      report.target = .ofString "/out" ∧ s.fs.LeadsTo (.ofString "/out") real ∧
      report.Restores packed fs [utf8 "src"] s.fs real := by
  intro fs packed options
  have htree : fs.IsTree := isTree_of_checksTree (by decide)
  have hsource : fs.LeadsTo (RealPath.toPath [utf8 "src"]) [utf8 "src"] := ⟨by decide, by decide⟩
  have hwhole : PackedWhole fs {} [utf8 "src"] := ⟨noLinksBelow_of_nodes (by decide) _, by decide⟩
  have hwalk : WalkPlan.walk ⟨fs, .empty, none, {}⟩ (.ofString "/src") =
      .ok [⟨"d", .ofString "/src/d", .directory, some 0o2750⟩,
        ⟨"d/f", .ofString "/src/d/f", .file, some 0o600⟩, ⟨"g", .ofString "/src/g", .file, some 0o444⟩] := by cbv
  have hvalid : ∀ d d' : Digest, Manifest.validate ⟨[.directory "d" (some 0o2750),
      .file "d/f" 0 1 d (some 0o600), .file "g" 1 2 d' (some 0o444)]⟩ 3 = .ok () := by
    intro d d'
    cbv
  have hpack : pack fs {} (.ofString "/src") = .ok packed :=
    pack_of_turns rfl (by decide) rfl hwalk rfl (hvalid _ _)
  have hroot : resolveRoot fs.cwd.toPath fs.executable options.defaultRoot (some (.ofString "/out")) =
      .ok (.ofString "/out") := by decide
  have hout : fs.LeadsTo (RealPath.toPath [utf8 "out"]) [utf8 "out"] := ⟨by decide, by decide⟩
  have hfresh : FreshTarget fs (RealPath.toPath [utf8 "out"]) := freshTarget_of_nodes hout (by decide)
  have haccepted : ∀ e ∈ packed.manifest.entries, ∃ p, sanitize (.ofString "/out") e.path = .ok p :=
    List.forall_mem_cons.2 ⟨⟨_, rfl⟩, List.forall_mem_cons.2 ⟨⟨_, rfl⟩, List.forall_mem_singleton.2 ⟨_, rfl⟩⟩⟩
  have hapart : PathsApart packed.manifest.files := pathsApart_of_length (k := 1) (by decide)
  have hquiet : options.IsQuiet := by rintro _ ⟨⟩
  have hnever : options.NeverCancels := ⟨by rintro _ ⟨⟩, by rintro _ ⟨⟩⟩
  refine ⟨⟨htree, hsource, hwhole, hpack, by decide, hquiet, hnever, hroot, hfresh, haccepted, hapart⟩, ?_⟩
  exact pack_extract_restores htree hsource hwhole rfl (by decide) hpack (by decide) hquiet hnever rfl rfl
    [0, 1, 1, 0] htree.closed hroot hfresh haccepted fun _ => hapart

/-- A file with a name of 244 bytes is packed, and its path is accepted, but it is not unpacked. -/
theorem packed_crowded_lost :
    let n : Name := List.replicate 244 110
    let fs : FileSystem := ⟨[([], .directory 0o755), ([utf8 "out"], .directory 0o755),
      ([utf8 "src"], .directory 0o755), ([utf8 "src", n], .file 0o644 [120])], [], .ofString "/bin/pack"⟩
    ∃ packed bytes report s real, pack fs {} (.ofString "/src") = .ok packed ∧ packed.encode = .ok bytes ∧
      (∀ e ∈ packed.manifest.entries, ∃ p, sanitize (.ofString "/out") e.path = .ok p) ∧
      extractBytes {} [] bytes (some (.ofString "/out")) (.start fs {}) = (.ok report, s) ∧
      report.status = .partialFailure ∧ s.fs.LeadsTo (.ofString "/out") real ∧ s.fs.get? (real ++ [n]) = none := by
  intro n fs
  obtain ⟨name, hname, hlist⟩ : ∃ name, utf8 name = n ∧ name.toList = List.replicate 244 'n' :=
    ⟨String.ofList (List.replicate 244 'n'), by decide +kernel, String.toList_ofList⟩
  have hmem : ∀ c ∈ name.toList, c = 'n' := fun c hc => List.eq_of_mem_replicate (hlist ▸ hc)
  have hslash : '/' ∉ name.toList := fun h => nomatch hmem _ h
  have htree : fs.IsTree := isTree_of_checksTree (by decide +kernel)
  have hpack : pack fs {} (.ofString "/src") = .ok ⟨⟨[.file name 0 1 (.of [120]) (some 0o644)]⟩, [120],
      [.ofString "/src", (Path.ofString "/src").push (utf8 name)]⟩ := by
    refine pack_single_file [120] (by decide) (by decide) (by decide +kernel) ?_ ?_ ?_ (by decide) ?_
      (fun h => nomatch hmem _ h) hslash ?_
    · rw [hname]; decide +kernel
    · rw [hname]; decide +kernel
    · rw [hname]; decide +kernel
    · rintro rfl
      cases hlist
    · rw [hname]; decide +kernel
  generalize hentry : Entry.file name 0 1 (.of [120]) (some 0o644) = e at hpack
  have hpath : e.path = name := hentry ▸ rfl
  have hnamed : e.name = n := by rw [Entry.name, hpath, lastSegment_eq_self hslash, hname]
  have haccepted : ∀ e' ∈ [e], ∃ p, sanitize (.ofString "/out") e'.path = .ok p := by
    obtain ⟨plan, top, found, read, hfs, -, -, hmade⟩ := pack_eq_ok htree hpack
    intro e' he'
    rw [hmade.sanitize (hfs ▸ htree) he', List.mem_singleton.1 he', hpath, hlist]
    exact ⟨_, rfl⟩
  have hsource : fs.LeadsTo (RealPath.toPath [utf8 "src"]) [utf8 "src"] := ⟨by decide, by decide⟩
  have hwhole : PackedWhole fs {} [utf8 "src"] := ⟨noLinksBelow_of_nodes (by decide) _, by decide +kernel⟩
  have hroot : resolveRoot fs.cwd.toPath fs.executable .executableDirectory (some (.ofString "/out")) =
      .ok (.ofString "/out") := by decide
  have hout : fs.LeadsTo (RealPath.toPath [utf8 "out"]) [utf8 "out"] := ⟨by decide, by decide⟩
  have hfresh : FreshTarget fs (RealPath.toPath [utf8 "out"]) := freshTarget_of_nodes hout (by decide +kernel)
  have hquiet : ExtractOptions.IsQuiet {} := fun _ hlistener => nomatch hlistener
  obtain ⟨bytes, report, s, real, hencode, hrun, -, hleads, hrestores⟩ := run_extractBytes_pack (by decide)
    (by decide : (1 : Nat) < _) hquiet ⟨nofun, nofun⟩ rfl rfl [] htree.closed hroot hfresh haccepted
    (fun _ => pathsApart_of_length fun e' he' => by rw [List.mem_singleton.1 (List.mem_filter.1 he').1]) htree
    hsource hwhole rfl hpack
  refine ⟨_, bytes, report, s, real, hpack, hencode, haccepted, hrun, ?_, hleads, ?_⟩
  · have hcrowded : e.IsCrowded := ⟨hentry ▸ rfl, by rw [hnamed]; decide +kernel⟩
    have hne : report.status ≠ .success := fun h => hrestores.success.1 h e (List.mem_singleton_self e) hcrowded
    rw [Report.status] at hne ⊢
    split
    · rfl
    · next h => rw [if_neg h] at hne; exact absurd rfl hne
  · have hnode := hrestores.nodes [] n
    rw [List.nil_append] at hnode
    rw [hnode]
    decide +kernel

end TreeImage
