import TreeImage.Pack.Walk
import TreeImage.Proofs.Extract.Destination
import TreeImage.Proofs.FileSystem.Trees
import TreeImage.Proofs.Text.Ascii

set_option autoImplicit false

/-! # What a walk takes in

A walk starts at a directory `top` and goes down by names. Every entry that it takes in stands at the place
that its path spells below `top` (`SourceEntry.Stands`), and one visit to a directory takes in an entry for
every name in it that is not left out (`visitAll_eq_ok`). -/

namespace TreeImage

open FileSystem

variable {plan : WalkPlan} {fs : FileSystem} {top front : RealPath} {d : SourceDirectory} {item : SourceEntry}
  {items : List SourceEntry} {s s' : WalkState} {name : Name} {listed : List Name} {path : String} {x : Node}

/-! ## Places -/

/-- The names that lead from the start of a walk to a directory on the way. -/
def SourceDirectory.names (d : SourceDirectory) : RealPath := (d.path.map entryNames).getD []

/-- The directory stands where its path says, and the path has no backslash. -/
structure SourceDirectory.Stands (fs : FileSystem) (top : RealPath) (d : SourceDirectory) : Prop where
  source : d.source = RealPath.toPath (top ++ d.names)
  directory : fs.isDirectoryAt (top ++ d.names) = true
  noBackslash : ∀ path, d.path = some path → '\\' ∉ path.toList

/-- The kind of the nodes that entries of a kind are made from. -/
def EntryKind.nodeKind : EntryKind → NodeKind
  | directory => .directory
  | file => .file

/-- The entry describes the node that stands where its path says, and the path can be packed. -/
structure SourceEntry.Stands (plan : WalkPlan) (top : RealPath) (item : SourceEntry) : Prop where
  source : item.source = RealPath.toPath (top ++ entryNames item.path)
  node : ∃ x, plan.fs.get? (top ++ entryNames item.path) = some x ∧ x.kind = item.kind.nodeKind ∧
    item.mode = if plan.options.preservePermissions then some (x.mode &&& modeMask) else none
  noBackslash : '\\' ∉ item.path.toList
  short : (utf8 item.path).length ≤ maxPathLength

/-- The directory that has to be entered for an entry, if it is one. -/
def SourceEntry.directories (item : SourceEntry) : List SourceDirectory :=
  match item.kind with
  | .directory => [⟨item.source, some item.path⟩]
  | .file => []

theorem SourceEntry.mem_directories_iff :
    d ∈ item.directories ↔ item.kind = .directory ∧ d = ⟨item.source, some item.path⟩ := by
  rw [directories]
  cases item.kind <;> simp

theorem SourceEntry.names_of_mem_directories (h : d ∈ item.directories) : d.names = entryNames item.path := by
  rw [(mem_directories_iff.1 h).2]
  rfl

theorem SourceEntry.Stands.directories (h : item.Stands plan top) :
    ∀ d ∈ item.directories, d.Stands plan.fs top := by
  intro d hd
  obtain ⟨hdirectory, rfl⟩ := mem_directories_iff.1 hd
  obtain ⟨x, hget, hkind, -⟩ := h.node
  rw [hdirectory] at hkind
  refine ⟨h.source, ?_, fun path hpath => Option.some.inj hpath ▸ h.noBackslash⟩
  show plan.fs.isDirectoryAt (top ++ entryNames item.path) = true
  rw [isDirectoryAt, hget]
  exact beq_iff_eq.2 hkind

/-- What an entry to be entered is called. -/
theorem SourceEntry.Stands.mem_directories (h : item.Stands plan top)
    (hdir : plan.fs.isDirectoryAt (top ++ entryNames item.path) = true) :
    ⟨item.source, some item.path⟩ ∈ item.directories := by
  obtain ⟨x, hget, hkind, -⟩ := h.node
  obtain ⟨mode, hdirectory⟩ := isDirectoryAt_iff.1 hdir
  obtain rfl := Option.some.inj (hget.symm.trans hdirectory)
  refine mem_directories_iff.2 ⟨?_, rfl⟩
  cases hitem : item.kind with
  | directory => rfl
  | file =>
    rw [hitem] at hkind
    cases hkind

/-! ## One entry -/

/-- The path of an entry has the names of its directory, and then its own. -/
theorem SourceDirectory.entryPath_eq_ok (hname : IsProperName name) (h : d.entryPath name = .ok path) :
    entryNames path = d.names ++ [name] ∧
      ((∀ before, d.path = some before → '\\' ∉ before.toList) → '\\' ∉ path.toList) := by
  rw [entryPath] at h
  cases htext : text? name with
  | none =>
    rw [htext] at h
    cases h
  | some s =>
    rw [htext] at h
    have hs : utf8 s = name := utf8_of_text? htext
    have hslash : '/' ∉ s.toList := by
      intro hmem
      refine hname.slash_not_mem ?_
      rw [← hs]
      exact (mem_utf8_iff (by decide)).2 hmem
    have hlast : (segments '/' s.toList).map segmentName = [name] := by
      rw [segments_of_not_mem hslash, List.map_singleton, segmentName, String.ofList_toList, hs]
    simp only at h
    split at h
    · cases h
    · next hbackslash =>
      rw [List.contains_iff_mem] at hbackslash
      cases hpath : d.path with
      | none =>
        rw [hpath] at h
        cases h
        refine ⟨?_, fun _ => hbackslash⟩
        rw [entryNames, pathSegments, hlast, names, hpath]
        rfl
      | some before =>
        rw [hpath] at h
        cases h
        have hlist : (before ++ "/" ++ s).toList = before.toList ++ '/' :: s.toList := by
          rw [String.toList_append, String.toList_append, List.append_assoc]
          rfl
        constructor
        · rw [entryNames, pathSegments, hlist, segments_append, List.map_append, hlast, names, hpath]
          rfl
        · intro hbefore hmem
          rw [hlist, List.mem_append, List.mem_cons] at hmem
          rcases hmem with hmem | hmem | hmem
          · exact hbefore before rfl hmem
          · exact absurd hmem (by decide)
          · exact hbackslash hmem

namespace WalkPlan

/-- What a walk leaves out on its own account: a path to skip, a link, and what the rules exclude. -/
def Omits (plan : WalkPlan) (top front : RealPath) : Prop :=
  plan.skip.any (·.sameAs (RealPath.toPath (top ++ front))) = true ∨
    (∃ target, plan.fs.get? (top ++ front) = some (.symlink target)) ∨
    ∃ path, entryNames path = front ∧ plan.rules.isIgnored path (plan.fs.isDirectoryAt (top ++ front)) = true

/-- The entries `items`, the newest first, are what is taken in for some names of a directory. -/
structure Takes (plan : WalkPlan) (top : RealPath) (d : SourceDirectory) (listed : List Name)
    (s s' : WalkState) (items : List SourceEntry) : Prop where
  entries : s'.entries = items ++ s.entries
  pending : s'.pending = items.flatMap (·.directories) ++ s.pending
  stands : ∀ item ∈ items, item.Stands plan top
  all : ∀ name ∈ listed, plan.Omits top (d.names ++ [name]) ∨
    ∃ item ∈ items, entryNames item.path = d.names ++ [name]
  below : ∀ item ∈ items, ∃ name ∈ listed, entryNames item.path = d.names ++ [name]
  kept : ∀ item ∈ items, ¬plan.Omits top (entryNames item.path)
  distinct : listed.Nodup → (items.map (·.path)).Nodup

/-- The order in which the names come does not matter. -/
theorem Takes.perm {listed' : List Name} (h : plan.Takes top d listed s s' items) (hperm : listed.Perm listed') :
    plan.Takes top d listed' s s' items where
  entries := h.entries
  pending := h.pending
  stands := h.stands
  all name hname := h.all name (hperm.mem_iff.2 hname)
  below item hitem := (h.below item hitem).imp fun _ ⟨hname, heq⟩ => ⟨hperm.mem_iff.1 hname, heq⟩
  kept := h.kept
  distinct hnodup := h.distinct (hperm.nodup_iff.2 hnodup)

theorem keep_eq_ok {source : Path} {info : NodeInfo} (h : plan.keep s source path info = .ok s') :
    ∃ kind : EntryKind, info.kind = kind.nodeKind ∧
      s'.entries = ⟨path, source, kind, plan.recordedMode info⟩ :: s.entries ∧
      s'.pending = SourceEntry.directories ⟨path, source, kind, plan.recordedMode info⟩ ++ s.pending := by
  rw [keep] at h
  split at h
  · next hkind =>
    cases h
    exact ⟨.directory, hkind, rfl, rfl⟩
  · next hkind =>
    simp only at h
    split at h
    · cases h
    · cases h
      exact ⟨.file, hkind, rfl, rfl⟩
  · cases h

/-- One entry is left out, or taken in. -/
theorem visit_eq_ok (htree : plan.fs.IsTree) (hd : d.Stands plan.fs top)
    (hget : plan.fs.get? (top ++ d.names ++ [name]) = some x) (h : plan.visit d s name = .ok s') :
    ∃ items, plan.Takes top d [name] s s' items := by
  have hname := htree.named _ _ _ hget
  have hplace : d.source.push name = RealPath.toPath (top ++ (d.names ++ [name])) := by
    rw [hd.source, RealPath.push_toPath (RealPath.isProper_append.1 (htree.isProper hget)).1 hname.1,
      List.append_assoc]
  have hinspect := inspect_of_find (htree.find_entry hget)
  rw [List.append_assoc] at hget hinspect
  -- an entry that is left out changes nothing
  have homits : plan.Omits top (d.names ++ [name]) → plan.Takes top d [name] s s [] := fun homits =>
    ⟨rfl, rfl, nofun, List.forall_mem_singleton.2 (.inl homits), nofun, nofun, fun _ => .nil⟩
  rw [visit, hplace] at h
  simp only [hinspect] at h
  split at h
  · next hskip =>
    cases h
    exact ⟨[], homits (.inl hskip)⟩
  next hskip =>
  split at h
  · next hlink =>
    split at h
    · cases h
    · cases h
      cases x with
      | symlink target => exact ⟨[], homits (.inr (.inl ⟨target, hget⟩))⟩
      | _ => cases hlink
  next hlink =>
  split at h
  · cases h
  next path hpath =>
  obtain ⟨hnames, hbackslash⟩ := d.entryPath_eq_ok hname.1 hpath
  split at h
  · next hignored =>
    cases h
    refine ⟨[], homits (.inr (.inr ⟨path, hnames, ?_⟩))⟩
    rw [isDirectoryAt, hget]
    exact hignored
  next hignored =>
  split at h
  · cases h
  next hshort =>
  have hkept : ¬plan.Omits top (d.names ++ [name]) := by
    rintro (hyes | ⟨target, hyes⟩ | ⟨path', hsame, hyes⟩)
    · exact hskip hyes
    · rw [hget, Option.some.injEq] at hyes
      exact hlink (congrArg Node.kind hyes)
    · rw [entryNames_injective (hsame.trans hnames.symm), isDirectoryAt, hget] at hyes
      exact hignored hyes
  obtain ⟨kind, hkind, hentries, hpending⟩ := keep_eq_ok h
  refine ⟨[_], hentries, ?_, ?_, ?_, ?_, ?_, fun _ => List.nodup_singleton _⟩
  · rw [hpending, List.flatMap_singleton]
  · refine List.forall_mem_singleton.2 ⟨?_, ⟨x, ?_, hkind, rfl⟩, hbackslash hd.noBackslash, Nat.not_lt.1 hshort⟩
    · rw [hnames]
    · rw [hnames]
      exact hget
  · exact List.forall_mem_singleton.2 (.inr ⟨_, List.mem_singleton_self _, hnames⟩)
  · exact List.forall_mem_singleton.2 ⟨name, List.mem_singleton_self name, hnames⟩
  · refine List.forall_mem_singleton.2 ?_
    rwa [hnames]

/-- Entries are dealt with one after the other. -/
theorem visitAll_eq_ok (htree : plan.fs.IsTree) (hd : d.Stands plan.fs top)
    (hlisted : ∀ name ∈ listed, ∃ x, plan.fs.get? (top ++ d.names ++ [name]) = some x)
    (h : plan.visitAll d listed s = .ok s') : ∃ items, plan.Takes top d listed s s' items := by
  induction listed generalizing s with
  | nil =>
    cases h
    exact ⟨[], rfl, rfl, nofun, nofun, nofun, nofun, fun _ => .nil⟩
  | cons name rest ih =>
    obtain ⟨⟨x, hget⟩, hrest⟩ := List.forall_mem_cons.1 hlisted
    rw [visitAll] at h
    split at h
    · cases h
    next s₁ hvisit =>
    obtain ⟨items, hfirst⟩ := visit_eq_ok htree hd hget hvisit
    obtain ⟨more, hmore⟩ := ih hrest h
    refine ⟨more ++ items, ?_, ?_, ?_, ?_, ?_, ?_, ?_⟩
    · rw [hmore.entries, hfirst.entries, List.append_assoc]
    · rw [hmore.pending, hfirst.pending, List.flatMap_append, List.append_assoc]
    · exact List.forall_mem_append.2 ⟨hmore.stands, hfirst.stands⟩
    · intro n hn
      rcases List.mem_cons.1 hn with rfl | hn
      · refine (hfirst.all n (List.mem_singleton_self n)).imp_right ?_
        exact fun ⟨item, hitem, heq⟩ => ⟨item, List.mem_append_right _ hitem, heq⟩
      · refine (hmore.all n hn).imp_right ?_
        exact fun ⟨item, hitem, heq⟩ => ⟨item, List.mem_append_left _ hitem, heq⟩
    · refine List.forall_mem_append.2 ⟨fun item hitem => ?_, fun item hitem => ?_⟩
      · obtain ⟨n, hn, heq⟩ := hmore.below item hitem
        exact ⟨n, List.mem_cons_of_mem _ hn, heq⟩
      · obtain ⟨n, hn, heq⟩ := hfirst.below item hitem
        exact ⟨n, List.mem_singleton.1 hn ▸ List.mem_cons_self, heq⟩
    · exact List.forall_mem_append.2 ⟨hmore.kept, hfirst.kept⟩
    · intro hnodup
      obtain ⟨hnew, hrest⟩ := List.nodup_cons.1 hnodup
      rw [List.map_append]
      refine List.Nodup.append (hmore.distinct hrest) (hfirst.distinct (List.nodup_singleton name)) ?_
      -- an entry for a name of the rest has another name than this one
      intro path hpath hpath'
      obtain ⟨item, hitem, rfl⟩ := List.mem_map.1 hpath
      obtain ⟨item', hitem', heq⟩ := List.mem_map.1 hpath'
      obtain ⟨n, hn, hnames⟩ := hmore.below item hitem
      obtain ⟨n', hn', hnames'⟩ := hfirst.below item' hitem'
      rw [heq, hnames, List.mem_singleton.1 hn'] at hnames'
      exact hnew (List.singleton_inj.1 (List.append_cancel_left hnames') ▸ hn)

end WalkPlan

end TreeImage
