import TreeImage.Proofs.Pack.Exploring

set_option autoImplicit false

/-! # Every entry comes once, and with its directory

A walk never enters a directory twice, and takes in an entry only after the directory that it lies in. This holds
of every walk, whatever it leaves out: an entry cannot be taken in without its directory, because nothing below a
directory is looked at before that directory was taken in (`WalkPlan.Tidy`). -/

namespace TreeImage

open FileSystem

variable {fs : FileSystem} {plan : WalkPlan} {top front r : RealPath} {d : SourceDirectory}
  {item : SourceEntry} {items found : List SourceEntry} {rest : List SourceDirectory} {s s' : WalkState}
  {listed : List Name}

/-- No name comes twice in a directory if no place comes twice in the table. -/
theorem FileSystem.nodup_children (h : (fs.nodes.map Prod.fst).Nodup) (r : RealPath) : (fs.children r).Nodup := by
  have hplaces : fs.children r = (fs.nodes.map Prod.fst).filterMap (childName? r) := by
    rw [List.filterMap_map]
    rfl
  rw [hplaces]
  refine h.filterMap fun p q n hp hq => ?_
  rw [childName?_eq_some_iff.1 hp, childName?_eq_some_iff.1 hq]

theorem SourceEntry.sublist_directories (items : List SourceEntry) :
    ((items.flatMap (·.directories)).map (·.names)).Sublist ((items.map (·.path)).map entryNames) := by
  induction items with
  | nil => exact .slnil
  | cons item items ih =>
    rw [List.flatMap_cons, List.map_append, directories]
    cases item.kind with
    | directory => exact ih.cons_cons _
    | file => exact ih.cons _

/-- The directories among different entries are different. -/
theorem SourceEntry.nodup_directories (h : (items.map (·.path)).Nodup) :
    ((items.flatMap (·.directories)).map (·.names)).Nodup :=
  (sublist_directories items).nodup (h.map entryNames_injective)

namespace WalkPlan

/-- The place is the start of the walk, or a directory that was taken in. -/
def Knows (entries : List SourceEntry) (front : RealPath) : Prop :=
  front = [] ∨ ∃ item ∈ entries, item.kind = .directory ∧ entryNames item.path = front

theorem Knows.mono {more : List SourceEntry} (h : Knows items front) (hsub : items ⊆ more) : Knows more front :=
  h.imp_right fun ⟨item, hitem, hdirectory⟩ => ⟨item, hsub hitem, hdirectory⟩

/-- What holds between two directories: everything was taken in once and after the directory that it lies in, and
    nothing that lies in a pending directory was taken in yet. -/
structure Tidy (s : WalkState) : Prop where
  once : (s.entries.map (·.path)).Nodup
  parents : ∀ item ∈ s.entries, ∀ front n, entryNames item.path = front ++ [n] → Knows s.entries front
  pendingOnce : (s.pending.map (·.names)).Nodup
  pendingKnown : ∀ d ∈ s.pending, Knows s.entries d.names
  ahead : ∀ d ∈ s.pending, ∀ item ∈ s.entries, ∀ n, entryNames item.path ≠ d.names ++ [n]

theorem tidy_start : Tidy { pending := [⟨top.toPath, none⟩] } :=
  ⟨.nil, nofun, List.nodup_singleton _, List.forall_mem_singleton.2 (.inl rfl), fun _ _ => nofun⟩

/-- A directory in a pending directory is not known yet. -/
theorem Tidy.not_knows (h : Tidy s) (hd : d ∈ s.pending) (n : Name) : ¬Knows s.entries (d.names ++ [n]) := by
  rintro (hnil | ⟨item, hitem, -, heq⟩)
  · exact List.append_ne_nil_of_right_ne_nil _ (List.cons_ne_nil _ _) hnil
  · exact h.ahead d hd item hitem n heq

/-- One directory is entered. -/
theorem Tidy.takes (h : Tidy s) (hpending : s.pending = d :: rest) (hlisted : listed.Nodup)
    (htakes : plan.Takes top d listed { s with pending := rest } s' items) : Tidy s' := by
  have hd : d ∈ s.pending := hpending ▸ List.mem_cons_self
  have hrest : ∀ d' ∈ rest, d' ∈ s.pending := fun d' hd' => hpending ▸ List.mem_cons_of_mem _ hd'
  obtain ⟨hnew, hrestOnce⟩ := List.nodup_cons.1 (List.map_cons ▸ hpending ▸ h.pendingOnce)
  have hentries : s'.entries = items ++ s.entries := htakes.entries
  have holder : ∀ front, Knows s.entries front → Knows s'.entries front := fun front hknows =>
    hknows.mono (hentries ▸ List.subset_append_right _ _)
  -- what is pending now is a directory that was just found, or was pending before
  have hcases : ∀ d' ∈ s'.pending, (∃ item ∈ items, item.kind = .directory ∧ d'.names = entryNames item.path) ∨
      d' ∈ rest := by
    intro d' hd'
    rw [htakes.pending] at hd'
    refine (List.mem_append.1 hd').imp_left fun hd' => ?_
    obtain ⟨item, hitem, hd'⟩ := List.mem_flatMap.1 hd'
    obtain ⟨hkind, rfl⟩ := SourceEntry.mem_directories_iff.1 hd'
    exact ⟨item, hitem, hkind, rfl⟩
  refine ⟨?_, ?_, ?_, ?_, ?_⟩
  · rw [hentries, List.map_append]
    refine List.Nodup.append (htakes.distinct hlisted) h.once fun path hpath hpath' => ?_
    obtain ⟨item, hitem, rfl⟩ := List.mem_map.1 hpath
    obtain ⟨item', hitem', heq⟩ := List.mem_map.1 hpath'
    obtain ⟨n, -, hnames⟩ := htakes.below item hitem
    exact h.ahead d hd item' hitem' n (heq ▸ hnames)
  · rw [hentries]
    refine List.forall_mem_append.2 ⟨fun item hitem front n heq => ?_, fun item hitem front n heq => ?_⟩
    · obtain ⟨m, -, hnames⟩ := htakes.below item hitem
      obtain ⟨rfl, -⟩ := List.append_inj' (hnames.symm.trans heq) rfl
      exact hentries ▸ holder _ (h.pendingKnown d hd)
    · exact hentries ▸ holder _ (h.parents item hitem front n heq)
  · rw [htakes.pending, List.map_append]
    refine List.Nodup.append (SourceEntry.nodup_directories (htakes.distinct hlisted)) hrestOnce fun names hn hn' => ?_
    obtain ⟨d', hd', rfl⟩ := List.mem_map.1 hn
    obtain ⟨d'', hd'', heq⟩ := List.mem_map.1 hn'
    obtain ⟨item, hitem, hd'⟩ := List.mem_flatMap.1 hd'
    obtain ⟨n, -, hnames⟩ := htakes.below item hitem
    refine h.not_knows hd n ?_
    rw [← hnames, ← SourceEntry.names_of_mem_directories hd', ← heq]
    exact h.pendingKnown d'' (hrest d'' hd'')
  · intro d' hd'
    rcases hcases d' hd' with ⟨item, hitem, hkind, heq⟩ | hd'
    · exact .inr ⟨item, hentries ▸ List.mem_append_left _ hitem, hkind, heq.symm⟩
    · exact holder _ (h.pendingKnown d' (hrest d' hd'))
  · intro d' hd'
    rw [hentries]
    rcases hcases d' hd' with ⟨item, hitem, -, heq⟩ | hd'
    · obtain ⟨m, -, hnames⟩ := htakes.below item hitem
      rw [heq, hnames]
      refine List.forall_mem_append.2 ⟨fun item' hitem' n heq' => ?_, fun item' hitem' n heq' => ?_⟩
      · obtain ⟨m', -, hnames'⟩ := htakes.below item' hitem'
        simpa using congrArg List.length (hnames'.symm.trans heq')
      · exact h.not_knows hd m (h.parents item' hitem' _ n heq')
    · refine List.forall_mem_append.2 ⟨fun item' hitem' n heq' => ?_, h.ahead d' (hrest d' hd')⟩
      obtain ⟨m', -, hnames'⟩ := htakes.below item' hitem'
      obtain ⟨hsame, -⟩ := List.append_inj' (hnames'.symm.trans heq') rfl
      exact hnew (hsame ▸ List.mem_map_of_mem hd')

/-- What is found has every path once, and the directory of everything that is found is found, too. -/
theorem walk_tidy (htree : plan.fs.IsTree) (hsingle : (plan.fs.nodes.map Prod.fst).Nodup)
    (hdir : plan.fs.isDirectoryAt top = true) (h : plan.walk top.toPath = .ok found) :
    (found.map (·.path)).Nodup ∧
      ∀ item ∈ found, ∀ front n, entryNames item.path = front ++ [n] → Knows found front := by
  obtain ⟨s, hrun, rfl⟩ := exists_enter_of_walk h
  have hperm := perm_mergeSort_reverse s.entries
  obtain ⟨_, ⟨-, htidy⟩, -⟩ := enter_induction (P := fun _ t => plan.Explored top t ∧ Tidy t) htree
    (fun _ t ht d hd => (ht.1.pending d hd).1)
    (fun _ t t' d rest items ht hpending htakes =>
      ⟨ht.1.takes htree hpending htakes, ht.2.takes hpending (plan.fs.nodup_children hsingle _) htakes⟩)
    ⟨explored_start hdir, tidy_start⟩ hrun
  refine ⟨(hperm.map (·.path)).nodup_iff.2 htidy.once, fun item hitem front n heq => ?_⟩
  exact (htidy.parents item (hperm.mem_iff.1 hitem) front n heq).mono hperm.symm.subset

end WalkPlan

end TreeImage
