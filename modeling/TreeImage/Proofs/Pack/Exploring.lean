import TreeImage.Proofs.Pack.Walking

set_option autoImplicit false

/-! # What a walk finds

Whatever stands below the start of a walk is found, lies below a directory that is still to be entered, or is
left out (`WalkPlan.Explored`). No directory is entered twice, so in the end none is left to be entered. -/

namespace TreeImage

open FileSystem

variable {plan : WalkPlan} {top front : RealPath} {d : SourceDirectory} {items found : List SourceEntry}
  {rest : List SourceDirectory} {s s' : WalkState} {fuel : Nat}

namespace WalkPlan

/-- The place lies at or below one that a walk leaves out. -/
def Excludes (plan : WalkPlan) (top front : RealPath) : Prop :=
  ∃ before, before ≠ [] ∧ before <+: front ∧ plan.Omits top before

theorem not_excludes_nil : ¬plan.Excludes top [] := fun ⟨_, hne, hpre, _⟩ => hne (List.prefix_nil.1 hpre)

/-- An entry is left out with the directory that it lies in, or on its own. -/
theorem excludes_append_singleton {name : Name} :
    plan.Excludes top (front ++ [name]) ↔ plan.Excludes top front ∨ plan.Omits top (front ++ [name]) := by
  have hne : front ++ [name] ≠ [] := List.append_ne_nil_of_right_ne_nil _ (List.cons_ne_nil _ _)
  constructor
  · rintro ⟨before, hbefore, hpre, homits⟩
    rcases List.prefix_concat_iff.1 hpre with rfl | hpre
    · exact .inr homits
    · exact .inl ⟨before, hbefore, hpre, homits⟩
  · rintro (⟨before, hbefore, hpre, homits⟩ | homits)
    · exact ⟨before, hbefore, hpre.trans (List.prefix_append _ _), homits⟩
    · exact ⟨_, hne, List.prefix_rfl, homits⟩

/-- What holds between two directories: everything that was taken in stands where it should and is not left out,
    and every place is found, or lies below a directory that is pending, or is left out. -/
structure Explored (plan : WalkPlan) (top : RealPath) (s : WalkState) : Prop where
  entries : ∀ item ∈ s.entries, item.Stands plan top ∧ ¬plan.Excludes top (entryNames item.path)
  pending : ∀ d ∈ s.pending, d.Stands plan.fs top ∧ ¬plan.Excludes top d.names
  covered : ∀ front x, front ≠ [] → plan.fs.get? (top ++ front) = some x → plan.Excludes top front ∨
    (∃ item ∈ s.entries, entryNames item.path = front) ∨
    ∃ d ∈ s.pending, d.names <+: front ∧ d.names ≠ front

/-- At the start everything is still to come. -/
theorem explored_start (hdir : plan.fs.isDirectoryAt top = true) :
    plan.Explored top { pending := [⟨top.toPath, none⟩] } := by
  refine ⟨nofun, List.forall_mem_singleton.2 ⟨⟨?_, ?_, nofun⟩, not_excludes_nil⟩, ?_⟩
  · exact congrArg RealPath.toPath (List.append_nil top).symm
  · rwa [SourceDirectory.names, Option.map_none, Option.getD_none, List.append_nil]
  · intro front x hne _
    exact .inr (.inr ⟨⟨top.toPath, none⟩, List.mem_singleton_self _, List.nil_prefix, hne.symm⟩)

/-- A place below a directory that was visited is found, or lies below one that was found there. -/
theorem Takes.covered (htree : plan.fs.IsTree) (h : plan.Takes top d (plan.fs.children (top ++ d.names)) s s' items)
    {x : Node} (hget : plan.fs.get? (top ++ front) = some x) (hpre : d.names <+: front)
    (hne : d.names ≠ front) : plan.Excludes top front ∨ (∃ item ∈ items, entryNames item.path = front) ∨
      ∃ d' ∈ items.flatMap (·.directories), d'.names <+: front ∧ d'.names ≠ front := by
  obtain ⟨below, rfl⟩ := hpre
  obtain ⟨name, below, rfl⟩ := List.exists_cons_of_ne_nil fun h : below = [] => hne (by rw [h, List.append_nil])
  have hsplit : d.names ++ name :: below = d.names ++ [name] ++ below := by
    rw [List.append_assoc, List.singleton_append]
  rw [hsplit, ← List.append_assoc, ← List.append_assoc] at hget
  rw [hsplit]
  have hchild : ∃ y, plan.fs.get? (top ++ d.names ++ [name]) = some y := by
    by_cases hbelow : below = []
    · rw [hbelow, List.append_nil] at hget
      exact ⟨x, hget⟩
    · obtain ⟨mode, hmode⟩ := isDirectoryAt_iff.1 (htree.closed.isDirectoryAt_of_prefix hbelow hget)
      exact ⟨_, hmode⟩
  rcases h.all name (mem_children_iff.2 hchild) with homits | ⟨item, hitem, hnames⟩
  · exact .inl ⟨_, List.append_ne_nil_of_right_ne_nil _ (List.cons_ne_nil _ _), List.prefix_append _ below, homits⟩
  by_cases hbelow : below = []
  · refine .inr (.inl ⟨item, hitem, ?_⟩)
    rw [hnames, hbelow, List.append_nil]
  · have hdir := htree.closed.isDirectoryAt_of_prefix hbelow hget
    rw [List.append_assoc, ← hnames] at hdir
    refine .inr (.inr ⟨_, List.mem_flatMap.2 ⟨item, hitem, (h.stands item hitem).mem_directories hdir⟩, ?_⟩)
    show entryNames item.path <+: _ ∧ entryNames item.path ≠ _
    rw [hnames]
    exact ⟨List.prefix_append _ below, fun heq => hbelow (List.append_right_eq_self.1 heq.symm)⟩

/-- One directory is entered. -/
theorem Explored.takes (htree : plan.fs.IsTree) (h : plan.Explored top s) (hpending : s.pending = d :: rest)
    (htakes : plan.Takes top d (plan.fs.children (top ++ d.names)) { s with pending := rest } s' items) :
    plan.Explored top s' := by
  have hitems : ∀ item ∈ items, item.Stands plan top ∧ ¬plan.Excludes top (entryNames item.path) := by
    intro item hitem
    refine ⟨htakes.stands item hitem, fun hout => ?_⟩
    obtain ⟨name, -, heq⟩ := htakes.below item hitem
    rw [heq, excludes_append_singleton, ← heq] at hout
    exact hout.elim (h.pending d (hpending ▸ List.mem_cons_self)).2 (htakes.kept item hitem)
  refine ⟨?_, ?_, ?_⟩
  · rw [htakes.entries]
    exact List.forall_mem_append.2 ⟨hitems, h.entries⟩
  · rw [htakes.pending]
    refine List.forall_mem_append.2 ⟨fun d' hd' => ?_, fun d' hd' => h.pending d' ?_⟩
    · obtain ⟨item, hitem, hd'⟩ := List.mem_flatMap.1 hd'
      obtain ⟨hstands, hkept⟩ := hitems item hitem
      exact ⟨hstands.directories d' hd', SourceEntry.names_of_mem_directories hd' ▸ hkept⟩
    · rw [hpending]
      exact List.mem_cons_of_mem _ hd'
  · intro front x hne hget
    rw [htakes.entries, htakes.pending]
    rcases h.covered front x hne hget with hout | ⟨item, hitem, heq⟩ | ⟨d', hd', hbelow⟩
    · exact .inl hout
    · exact .inr (.inl ⟨item, List.mem_append_right _ hitem, heq⟩)
    rw [hpending] at hd'
    rcases List.mem_cons.1 hd' with rfl | hd'
    · rcases htakes.covered htree hget hbelow.1 hbelow.2 with hout | ⟨item, hitem, heq⟩ | ⟨d'', hd'', hbelow⟩
      · exact .inl hout
      · exact .inr (.inl ⟨item, List.mem_append_left _ hitem, heq⟩)
      · exact .inr (.inr ⟨d'', List.mem_append_left _ hd'', hbelow⟩)
    · exact .inr (.inr ⟨d', List.mem_append_right _ hd', hbelow⟩)

/-- What every directory that is entered preserves holds in the end: when none is pending, or no fuel is left. -/
theorem enter_induction {P : Nat → WalkState → Prop} (htree : plan.fs.IsTree)
    (hpending : ∀ fuel s, P fuel s → ∀ d ∈ s.pending, d.Stands plan.fs top)
    (hstep : ∀ fuel s s' d rest items, P (fuel + 1) s → s.pending = d :: rest →
      plan.Takes top d (plan.fs.children (top ++ d.names)) { s with pending := rest } s' items → P fuel s')
    (h : P fuel s) (hrun : plan.enter fuel s = .ok s') : ∃ left, P left s' ∧ (s'.pending = [] ∨ left = 0) := by
  induction fuel generalizing s with
  | zero =>
    cases hrun
    exact ⟨0, h, .inr rfl⟩
  | succ fuel ih =>
    rw [enter] at hrun
    split at hrun
    · next hnone =>
      cases hrun
      exact ⟨_, h, .inl hnone⟩
    next d rest hsome =>
    have hd := hpending _ s h d (hsome ▸ List.mem_cons_self)
    have hlist : plan.fs.list d.source = .ok (plan.fs.children (top ++ d.names)) := by
      rw [hd.source]
      exact (htree.leadsTo hd.directory).list
    simp only [hlist] at hrun
    split at hrun
    · cases hrun
    next s₁ hvisit =>
    obtain ⟨items, htakes⟩ := visitAll_eq_ok htree hd
      (fun name hname => mem_children_iff.1 (List.mem_mergeSort.1 hname)) hvisit
    exact ih (hstep fuel s s₁ d rest items h hsome (htakes.perm (List.mergeSort_perm _ _))) hrun

/-- The directories among what was taken in. -/
def entered (s : WalkState) : Nat := (s.entries.flatMap (·.directories)).length

theorem Takes.entered_eq {listed : List Name} (h : plan.Takes top d listed s s' items) :
    entered s' = (items.flatMap (·.directories)).length + entered s := by
  rw [entered, h.entries, List.flatMap_append, List.length_append]
  rfl

/-- Directories are entered until none is pending, or until the fuel is used up: then as many were entered. -/
theorem enter_eq_ok (htree : plan.fs.IsTree) (h : plan.Explored top s) (hrun : plan.enter fuel s = .ok s') :
    plan.Explored top s' ∧
      (s'.pending = [] ∨ s'.pending.length + fuel + entered s = s.pending.length + entered s') := by
  -- all directories that were taken in were entered, but for the pending ones
  let P := fun left t => plan.Explored top t ∧
    t.pending.length + fuel + entered s = s.pending.length + entered t + left
  have hstep : ∀ left t t' d rest items, P (left + 1) t → t.pending = d :: rest →
      plan.Takes top d (plan.fs.children (top ++ d.names)) { t with pending := rest } t' items → P left t' := by
    intro left t t' d rest items ⟨hexplored, hcount⟩ hpending htakes
    refine ⟨hexplored.takes htree hpending htakes, ?_⟩
    have hentered := htakes.entered_eq
    have hsame : entered { t with pending := rest } = entered t := rfl
    have hmore : t'.pending.length = (items.flatMap (·.directories)).length + rest.length := by
      rw [htakes.pending, List.length_append]
    rw [hpending, List.length_cons] at hcount
    omega
  obtain ⟨left, ⟨hexplored, hcount⟩, hend⟩ := enter_induction (P := P) htree
    (fun _ t ht d hd => (ht.1.pending d hd).1) hstep ⟨h, by omega⟩ hrun
  exact ⟨hexplored, hend.imp_right fun hleft => by rw [hcount, hleft, Nat.add_zero]⟩

/-- Different paths stand at different places of the table. -/
theorem length_le_length_nodes (hstands : ∀ item ∈ items, item.Stands plan top)
    (hpaths : (items.map (·.path)).Nodup) : items.length ≤ plan.fs.nodes.length := by
  have hplaces : (items.map fun item => top ++ entryNames item.path).Nodup := by
    have hsame : items.map (fun item => top ++ entryNames item.path) =
        (items.map (·.path)).map (top ++ entryNames ·) := by
      rw [List.map_map]
      rfl
    rw [hsame]
    exact hpaths.map fun a b heq => entryNames_injective (List.append_cancel_left heq)
  have hsub : (items.map fun item => top ++ entryNames item.path) ⊆ plan.fs.nodes.map Prod.fst := by
    intro q hq
    obtain ⟨item, hitem, rfl⟩ := List.mem_map.1 hq
    obtain ⟨x, hget, -⟩ := (hstands item hitem).node
    exact mem_nodes_of_get? (Option.isSome_iff_exists.2 ⟨x, hget⟩)
  simpa using (hplaces.subperm hsub).length_le

theorem entered_le_length (s : WalkState) : entered s ≤ s.entries.length := by
  rw [entered]
  induction s.entries with
  | nil => exact Nat.le_refl _
  | cons item items ih =>
    have hone : item.directories.length ≤ 1 := by
      rw [SourceEntry.directories]
      split <;> simp
    rw [List.flatMap_cons, List.length_append, List.length_cons]
    omega

/-- A walk with fuel for every node enters all directories, since more directories than nodes cannot be entered. -/
theorem pending_eq_nil (htree : plan.fs.IsTree) (hdir : plan.fs.isDirectoryAt top = true)
    (hrun : plan.enter (plan.fs.nodes.length + 1) { pending := [⟨top.toPath, none⟩] } = .ok s)
    (hpaths : (s.entries.map (·.path)).Nodup) : s.pending = [] := by
  obtain ⟨hexplored, hend⟩ := enter_eq_ok htree (explored_start hdir) hrun
  rcases hend with hnone | hcount
  · exact hnone
  have hnodes := length_le_length_nodes (fun item hitem => (hexplored.entries item hitem).1) hpaths
  have hentered := entered_le_length s
  have hstart : entered { pending := [⟨top.toPath, none⟩] } = 0 := rfl
  rw [hstart, List.length_singleton] at hcount
  exact List.eq_nil_of_length_eq_zero (by omega)

/-- What a walk finds is what was taken in, in canonical order. -/
theorem exists_enter_of_walk {root : Path} (h : plan.walk root = .ok found) :
    ∃ s, plan.enter (plan.fs.nodes.length + 1) { pending := [⟨root, none⟩] } = .ok s ∧
      found = s.entries.reverse.mergeSort fun a b => a.order b != .gt := by
  rw [walk] at h
  cases hrun : plan.enter (plan.fs.nodes.length + 1) { pending := [⟨root, none⟩] } with
  | error e =>
    rw [hrun] at h
    cases h
  | ok s =>
    rw [hrun] at h
    cases h
    exact ⟨s, rfl, rfl⟩

theorem perm_mergeSort_reverse (items : List SourceEntry) :
    (items.reverse.mergeSort fun a b => a.order b != .gt).Perm items :=
  (List.mergeSort_perm _ _).trans items.reverse_perm

/-- **What is found stands below the start of the walk and is not left out, and everything else that stands there
    is found**, unless two entries have one path. -/
theorem walk_eq_ok (htree : plan.fs.IsTree) (hdir : plan.fs.isDirectoryAt top = true)
    (h : plan.walk top.toPath = .ok found) :
    (∀ item ∈ found, item.Stands plan top ∧ ¬plan.Excludes top (entryNames item.path)) ∧
      ((found.map (·.path)).Nodup → ∀ front x, front ≠ [] → plan.fs.get? (top ++ front) = some x →
        plan.Excludes top front ∨ ∃ item ∈ found, entryNames item.path = front) := by
  obtain ⟨s, hrun, rfl⟩ := exists_enter_of_walk h
  have hexplored := (enter_eq_ok htree (explored_start hdir) hrun).1
  have hperm := perm_mergeSort_reverse s.entries
  refine ⟨fun item hitem => hexplored.entries item (hperm.mem_iff.1 hitem), fun hpaths front x hne hget => ?_⟩
  have hnone := pending_eq_nil htree hdir hrun ((hperm.map (·.path)).nodup_iff.1 hpaths)
  have hcovered := hexplored.covered front x hne hget
  rw [hnone] at hcovered
  rcases hcovered with hout | ⟨item, hitem, heq⟩ | ⟨d, hd, -⟩
  · exact .inl hout
  · exact .inr ⟨item, hperm.mem_iff.2 hitem, heq⟩
  · exact absurd hd List.not_mem_nil

end WalkPlan

end TreeImage
