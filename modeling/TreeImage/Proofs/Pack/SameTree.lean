import TreeImage.Proofs.Pack.Ancestry
import TreeImage.Proofs.Pack.Reading

set_option autoImplicit false

/-! # The same tree at two places

A walk looks at names, kinds and modes below its start, in the order of the names. So two walks over the same tree
at two places go in lockstep, in whatever order the directories are listed: they take in the same entries, each with
a source at its own place (`SourceEntry.under`), or fail with the same error about the same place below
(`PackError.Corresponds`). -/

namespace TreeImage

open FileSystem

variable {fs fs' : FileSystem} {plan plan' : WalkPlan} {top top' : RealPath} {d : SourceDirectory} {item : SourceEntry}
  {found : List SourceEntry} {s : WalkState} {name : Name} {listed : List Name} {x : Node} {options : PackOptions}
  {fuel more : Nat} {α β γ δ : Type} {R : α → β → Prop} {S : γ → δ → Prop}

/-- The same nodes stand below two places; the modes of the places themselves may be different. -/
def SameTree (fs : FileSystem) (top : RealPath) (fs' : FileSystem) (top' : RealPath) : Prop :=
  ∀ front, front ≠ [] → fs'.get? (top' ++ front) = fs.get? (top ++ front)

/-- The same error, about the same place below one root and below the other. -/
inductive PackError.Corresponds (top top' : RealPath) : PackError → PackError → Prop
  | backslash (front : RealPath) : Corresponds top top' (.backslash (RealPath.toPath (top ++ front)))
      (.backslash (RealPath.toPath (top' ++ front)))
  | nonUtf8 (front : RealPath) : Corresponds top top' (.nonUtf8 (RealPath.toPath (top ++ front)))
      (.nonUtf8 (RealPath.toPath (top' ++ front)))
  | pathTooLong (path : String) (length : Nat) : Corresponds top top' (.pathTooLong path length)
      (.pathTooLong path length)
  | sizeLimit (total limit : Nat) : Corresponds top top' (.sizeLimit total limit) (.sizeLimit total limit)
  | symlink (front : RealPath) : Corresponds top top' (.symlink (RealPath.toPath (top ++ front)))
      (.symlink (RealPath.toPath (top' ++ front)))
  | unsupportedFileType (front : RealPath) :
      Corresponds top top' (.unsupportedFileType (RealPath.toPath (top ++ front)))
        (.unsupportedFileType (RealPath.toPath (top' ++ front)))
  | read (front : RealPath) (refusal : Refusal) : Corresponds top top' (.read (RealPath.toPath (top ++ front)) refusal)
      (.read (RealPath.toPath (top' ++ front)) refusal)
  | ignorePattern (front : RealPath) (pattern : String) (cause : PatternError) :
      Corresponds top top' (.ignorePattern (RealPath.toPath (top ++ front)) pattern cause)
        (.ignorePattern (RealPath.toPath (top' ++ front)) pattern cause)
  | format (e : FormatError) : Corresponds top top' (.format e) (.format e)

/-- Two turns end alike: both well, with results that belong together, or both with the same error. -/
inductive EndAlike (top top' : RealPath) (R : α → β → Prop) : Except PackError α → Except PackError β → Prop
  | ok {a : α} {b : β} (h : R a b) : EndAlike top top' R (.ok a) (.ok b)
  | error {e e' : PackError} (h : e.Corresponds top top' e') : EndAlike top top' R (.error e) (.error e')

namespace EndAlike

theorem cases {a : Except PackError α} {b : Except PackError β} (h : EndAlike top top' R a b) :
    (∃ e e', a = .error e ∧ b = .error e' ∧ e.Corresponds top top' e') ∨ ∃ r r', a = .ok r ∧ b = .ok r' ∧ R r r' := by
  cases h with
  | ok h => exact .inr ⟨_, _, rfl, rfl, h⟩
  | error h => exact .inl ⟨_, _, rfl, rfl, h⟩

theorem map {a : Except PackError α} {b : Except PackError β} {f : α → γ} {g : β → δ} (h : EndAlike top top' R a b)
    (himp : ∀ r r', R r r' → S (f r) (g r')) : EndAlike top top' S (a.map f) (b.map g) := by
  cases h with
  | ok h => exact .ok (himp _ _ h)
  | error h => exact .error h

theorem bind {a : Except PackError α} {b : Except PackError β} {f : α → Except PackError γ} {g : β → Except PackError δ}
    (h : EndAlike top top' R a b) (hnext : ∀ r r', a = .ok r → R r r' → EndAlike top top' S (f r) (g r')) :
    EndAlike top top' S (a >>= f) (b >>= g) := by
  cases h with
  | ok h => exact hnext _ _ rfl h
  | error h => exact .error h

end EndAlike

/-! ## Moving what a walk holds -/

/-- The entry with its source below another place. -/
def SourceEntry.under (top : RealPath) (item : SourceEntry) : SourceEntry :=
  { item with source := RealPath.toPath (top ++ entryNames item.path) }

/-- The directory with its source below another place. -/
def SourceDirectory.under (top : RealPath) (d : SourceDirectory) : SourceDirectory :=
  { d with source := RealPath.toPath (top ++ d.names) }

/-- All that was found so far, below another place. -/
def WalkState.under (top : RealPath) (s : WalkState) : WalkState where
  entries := s.entries.map (·.under top)
  pending := s.pending.map (·.under top)
  declared := s.declared

theorem SourceDirectory.Stands.push (h : d.Stands fs top) (hproper : (top ++ d.names).IsProper)
    (hname : IsProperName name) : d.source.push name = RealPath.toPath (top ++ (d.names ++ [name])) := by
  rw [h.source, RealPath.push_toPath hproper hname, List.append_assoc]

namespace WalkPlan

/-! ## Steps of a walk -/

theorem visitAll_cons (plan : WalkPlan) (d : SourceDirectory) (name : Name) (rest : List Name) (s : WalkState) :
    plan.visitAll d (name :: rest) s = plan.visit d s name >>= plan.visitAll d rest := by
  rw [visitAll]
  cases plan.visit d s name <;> rfl

theorem enter_of_pending_eq_nil (fuel : Nat) (h : s.pending = []) : plan.enter fuel s = .ok s := by
  cases fuel with
  | zero => rfl
  | succ fuel => simp only [enter, h]

theorem enter_cons {rest : List SourceDirectory} {names : List Name} (fuel : Nat) (h : s.pending = d :: rest)
    (hlist : plan.fs.list d.source = .ok names) : plan.enter (fuel + 1) s =
      plan.visitAll d (names.mergeSort fun a b => a ≤ b) { s with pending := rest } >>= plan.enter fuel := by
  simp only [enter, h, hlist]
  cases plan.visitAll d (names.mergeSort fun a b => a ≤ b) { s with pending := rest } <;> rfl

/-- More fuel changes nothing if all directories are entered. -/
theorem enter_of_le (hle : fuel ≤ more) (hend : ∀ t, plan.enter fuel s = .ok t → t.pending = []) :
    plan.enter more s = plan.enter fuel s := by
  induction fuel generalizing more s with
  | zero =>
    have hnone := hend s rfl
    rw [enter_of_pending_eq_nil _ hnone, enter_of_pending_eq_nil _ hnone]
  | succ fuel ih =>
    obtain ⟨more, rfl⟩ := Nat.exists_eq_add_of_le' hle
    cases hnext : s.pending with
    | nil => rw [enter_of_pending_eq_nil _ hnext, enter_of_pending_eq_nil _ hnext]
    | cons d rest =>
      cases hlist : plan.fs.list d.source with
      | error e => simp only [enter, hnext, hlist]
      | ok names =>
        have hstep := fun fuel => enter_cons fuel hnext hlist
        rw [← Nat.add_assoc, hstep, hstep]
        rw [hstep] at hend
        cases hvisit : plan.visitAll d (names.mergeSort fun a b => a ≤ b) { s with pending := rest } with
        | error e => rfl
        | ok t =>
          rw [hvisit] at hend
          exact ih (Nat.le_add_left _ _) hend

/-- A walk has fuel enough for all directories. -/
theorem pending_eq_nil_of_enter (htree : plan.fs.IsTree) (hsingle : (plan.fs.nodes.map Prod.fst).Nodup)
    (hdir : plan.fs.isDirectoryAt top = true)
    (hrun : plan.enter (plan.fs.nodes.length + 1) { pending := [⟨top.toPath, none⟩] } = .ok s) : s.pending = [] := by
  have hwalk : plan.walk top.toPath = .ok (s.entries.reverse.mergeSort fun a b => a.order b != .gt) := by
    rw [walk, hrun]
    rfl
  have hpaths := (walk_tidy htree hsingle hdir hwalk).1
  exact pending_eq_nil htree hdir hrun (((perm_mergeSort_reverse s.entries).map (·.path)).nodup_iff.1 hpaths)

end WalkPlan

theorem pairwise_mergeSort_names (names : List Name) :
    (names.mergeSort fun a b => a ≤ b).Pairwise fun a b => a ≤ b := by
  refine (List.pairwise_mergeSort ?_ ?_ names).imp fun h => of_decide_eq_true h
  · exact fun a b c hab hbc => decide_eq_true (List.le_trans (of_decide_eq_true hab) (of_decide_eq_true hbc))
  · intro a b
    rw [Bool.or_eq_true, decide_eq_true_iff, decide_eq_true_iff]
    exact List.le_total a b

/-- There is one way to sort names. -/
theorem eq_mergeSort_of_perm {names names' : List Name} (hsorted : names'.Pairwise fun a b => a ≤ b)
    (h : names'.Perm names) : names' = names.mergeSort fun a b => a ≤ b :=
  List.Perm.eq_of_pairwise (fun _ _ _ _ => List.le_antisymm) hsorted (pairwise_mergeSort_names names)
    (h.trans (List.mergeSort_perm _ _).symm)

/-- Sorting forgets the order of the names. -/
theorem mergeSort_eq_of_perm {names names' : List Name} (h : names'.Perm names) :
    names'.mergeSort (fun a b => a ≤ b) = names.mergeSort fun a b => a ≤ b :=
  eq_mergeSort_of_perm (pairwise_mergeSort_names names') ((List.mergeSort_perm _ _).trans h)

/-- Two plans that differ in where the same tree stands, and in how its directories are listed. -/
structure WalkPlan.Twins (plan plan' : WalkPlan) (top top' : RealPath) : Prop where
  tree : plan.fs.IsTree
  tree' : plan'.fs.IsTree
  start : plan.fs.isDirectoryAt top = true
  start' : plan'.fs.isDirectoryAt top' = true
  same : SameTree plan.fs top plan'.fs top'
  rules : plan'.rules = plan.rules
  options : plan'.options = plan.options
  skip : ∀ front : RealPath, front ≠ [] → front.IsProper →
    plan'.skip.any (·.sameAs (RealPath.toPath (top' ++ front))) =
      plan.skip.any (·.sameAs (RealPath.toPath (top ++ front)))

namespace WalkPlan.Twins

theorem isDirectoryAt (h : Twins plan plan' top top') {front : RealPath}
    (hdir : plan.fs.isDirectoryAt (top ++ front) = true) : plan'.fs.isDirectoryAt (top' ++ front) = true := by
  by_cases hfront : front = []
  · rw [hfront, List.append_nil]
    exact h.start'
  · rwa [FileSystem.isDirectoryAt, h.same front hfront]

theorem stands (h : Twins plan plan' top top') (hd : d.Stands plan.fs top) : (d.under top').Stands plan'.fs top' :=
  ⟨rfl, h.isDirectoryAt hd.directory, hd.noBackslash⟩

/-! ## One entry -/

theorem entryPath (hproper : (top ++ d.names).IsProper) (hproper' : (top' ++ d.names).IsProper)
    (hd : d.Stands plan.fs top) (h : Twins plan plan' top top') (hname : IsProperName name) :
    EndAlike top top' (· = ·) (d.entryPath name) ((d.under top').entryPath name) := by
  have hsource := hd.push hproper hname
  have hsource' := (h.stands hd).push hproper' hname
  rw [SourceDirectory.entryPath, SourceDirectory.entryPath, hsource, hsource']
  split
  · exact .error (.nonUtf8 _)
  · split
    · exact .error (.backslash _)
    · rw [SourceDirectory.under]
      cases d.path <;> exact .ok rfl

theorem keep (h : Twins plan plan' top top') (path : String) (info : NodeInfo) :
    EndAlike top top' (fun t t' => t' = t.under top')
      (plan.keep s (RealPath.toPath (top ++ entryNames path)) path info)
      (plan'.keep (s.under top') (RealPath.toPath (top' ++ entryNames path)) path info) := by
  have hmode : plan'.recordedMode info = plan.recordedMode info := by rw [recordedMode, recordedMode, h.options]
  rw [WalkPlan.keep, WalkPlan.keep, hmode, h.options]
  cases info.kind with
  | directory => exact .ok rfl
  | file =>
    show EndAlike top top' _ (if _ then _ else _) (if _ then _ else _)
    by_cases hlimit : plan.options.maxTotalSize < s.declared + info.size
    · have hlimit' : plan.options.maxTotalSize < (s.under top').declared + info.size := hlimit
      rw [if_pos hlimit, if_pos hlimit']
      exact .error (.sizeLimit _ _)
    · have hlimit' : ¬plan.options.maxTotalSize < (s.under top').declared + info.size := hlimit
      rw [if_neg hlimit, if_neg hlimit']
      exact .ok rfl
  | _ => exact .error (.unsupportedFileType _)

/-- One entry is dealt with in the same way at both places. -/
theorem visit (h : Twins plan plan' top top') (hd : d.Stands plan.fs top)
    (hget : plan.fs.get? (top ++ d.names ++ [name]) = some x) :
    EndAlike top top' (fun t t' => t' = t.under top') (plan.visit d s name)
      (plan'.visit (d.under top') (s.under top') name) := by
  have hname := (h.tree.named _ _ _ hget).1
  have hproper := (RealPath.isProper_append.1 (h.tree.isProper hget)).1
  have hget' : plan'.fs.get? (top' ++ d.names ++ [name]) = some x := by
    rw [List.append_assoc] at hget ⊢
    rw [h.same _ (List.append_ne_nil_of_right_ne_nil _ (List.cons_ne_nil _ _)), hget]
  have hproper' := (RealPath.isProper_append.1 (h.tree'.isProper hget')).1
  have hinspect := inspect_of_find (h.tree.find_entry hget)
  have hinspect' := inspect_of_find (h.tree'.find_entry hget')
  have hskip := h.skip (d.names ++ [name]) (List.append_ne_nil_of_right_ne_nil _ (List.cons_ne_nil _ _))
    (RealPath.isProper_append.2 ⟨(RealPath.isProper_append.1 hproper).2, RealPath.isProper_singleton.2 hname⟩)
  rw [List.append_assoc] at hinspect hinspect'
  rw [WalkPlan.visit, WalkPlan.visit, hd.push hproper hname, (h.stands hd).push hproper' hname]
  change plan'.skip.any (·.sameAs (RealPath.toPath (top' ++ ((d.under top').names ++ [name])))) = _ at hskip
  change plan'.fs.inspect false (RealPath.toPath (top' ++ ((d.under top').names ++ [name]))) = _ at hinspect'
  simp only [hskip, hinspect, hinspect']
  split
  · exact .ok rfl
  split
  · rw [h.options]
    split
    · exact .error (.symlink _)
    · exact .ok rfl
  rcases (entryPath hproper hproper' hd h hname).cases with ⟨e, e', he, he', herror⟩ | ⟨path, _, hpath, hpath', rfl⟩
  · simp only [he, he']
    exact .error herror
  simp only [hpath, hpath', h.rules]
  split
  · exact .ok rfl
  split
  · exact .error (.pathTooLong _ _)
  have hnames := (d.entryPath_eq_ok hname hpath).1
  have hkeep := h.keep (s := s) path ⟨x.kind, x.mode &&& modeMask, x.content.length⟩
  rw [hnames] at hkeep
  exact hkeep

/-! ## One directory -/

theorem visitAll (h : Twins plan plan' top top') (hd : d.Stands plan.fs top)
    (hlisted : ∀ name ∈ listed, ∃ x, plan.fs.get? (top ++ d.names ++ [name]) = some x) :
    EndAlike top top' (fun t t' => t' = t.under top') (plan.visitAll d listed s)
      (plan'.visitAll (d.under top') listed (s.under top')) := by
  induction listed generalizing s with
  | nil => exact .ok rfl
  | cons name rest ih =>
    obtain ⟨⟨x, hget⟩, hrest⟩ := List.forall_mem_cons.1 hlisted
    rw [visitAll_cons, visitAll_cons]
    refine (h.visit hd hget).bind fun t t' _ hmoved => ?_
    rw [hmoved]
    exact ih hrest

/-- Directories with the same entries list the same names, in some order. -/
theorem perm_children (h : Twins plan plan' top top') (hsingle : (plan.fs.nodes.map Prod.fst).Nodup)
    (hsingle' : (plan'.fs.nodes.map Prod.fst).Nodup) (front : RealPath) :
    (plan'.fs.children (top' ++ front)).Perm (plan.fs.children (top ++ front)) := by
  refine (List.perm_ext_iff_of_nodup (plan'.fs.nodup_children hsingle' _) (plan.fs.nodup_children hsingle _)).2 ?_
  intro n
  rw [mem_children_iff, mem_children_iff, List.append_assoc, List.append_assoc,
    h.same _ (List.append_ne_nil_of_right_ne_nil _ (List.cons_ne_nil _ _))]

/-! ## The whole walk -/

/-- Directories are entered in lockstep. -/
theorem enter (h : Twins plan plan' top top') (hsingle : (plan.fs.nodes.map Prod.fst).Nodup)
    (hsingle' : (plan'.fs.nodes.map Prod.fst).Nodup) (fuel : Nat)
    (hpending : ∀ d ∈ s.pending, d.Stands plan.fs top) :
    EndAlike top top' (fun t t' => t' = t.under top') (plan.enter fuel s) (plan'.enter fuel (s.under top')) := by
  induction fuel generalizing s with
  | zero => exact .ok rfl
  | succ fuel ih =>
    cases hnext : s.pending with
    | nil =>
      have hnext' : (s.under top').pending = [] := by rw [WalkState.under, hnext, List.map_nil]
      rw [enter_of_pending_eq_nil _ hnext, enter_of_pending_eq_nil _ hnext']
      exact .ok rfl
    | cons d rest =>
      obtain ⟨hd, hrest⟩ := List.forall_mem_cons.1 (hnext ▸ hpending)
      have hnext' : (s.under top').pending = d.under top' :: rest.map (·.under top') := by
        rw [WalkState.under, hnext, List.map_cons]
      have hlist : plan.fs.list d.source = .ok (plan.fs.children (top ++ d.names)) :=
        hd.source ▸ (h.tree.leadsTo hd.directory).list
      have hlist' : plan'.fs.list (d.under top').source = .ok (plan'.fs.children (top' ++ d.names)) :=
        (h.tree'.leadsTo (h.stands hd).directory).list
      have hlisted : ∀ name ∈ (plan.fs.children (top ++ d.names)).mergeSort fun a b => a ≤ b,
          ∃ x, plan.fs.get? (top ++ d.names ++ [name]) = some x :=
        fun name hname => mem_children_iff.1 (List.mem_mergeSort.1 hname)
      rw [enter_cons fuel hnext hlist, enter_cons fuel hnext' hlist',
        mergeSort_eq_of_perm (h.perm_children hsingle hsingle' d.names)]
      refine (h.visitAll (s := { s with pending := rest }) hd hlisted).bind fun t t' ht hmoved => ?_
      rw [hmoved]
      obtain ⟨items, htakes⟩ := visitAll_eq_ok h.tree hd hlisted ht
      refine ih ?_
      rw [htakes.pending]
      refine List.forall_mem_append.2 ⟨fun d' hd' => ?_, hrest⟩
      obtain ⟨item, hitem, hd'⟩ := List.mem_flatMap.1 hd'
      exact (htakes.stands item hitem).directories d' hd'

/-- Both walks find the same entries, or fail alike. -/
theorem walk (h : Twins plan plan' top top') (hsingle : (plan.fs.nodes.map Prod.fst).Nodup)
    (hsingle' : (plan'.fs.nodes.map Prod.fst).Nodup) :
    EndAlike top top' (fun found found' => found' = found.map (·.under top')) (plan.walk top.toPath)
      (plan'.walk top'.toPath) := by
  have hstart : WalkState.under top' { pending := [⟨top.toPath, none⟩] } = { pending := [⟨top'.toPath, none⟩] } := by
    have hnames : (⟨top.toPath, none⟩ : SourceDirectory).under top' = ⟨top'.toPath, none⟩ :=
      congrArg (SourceDirectory.mk · none) (congrArg RealPath.toPath (List.append_nil top'))
    rw [WalkState.under, List.map_singleton, hnames]
    rfl
  have hstands : ∀ d ∈ [(⟨top.toPath, none⟩ : SourceDirectory)], d.Stands plan.fs top :=
    fun d hd => ((explored_start h.start).pending d hd).1
  -- both walks are given the larger of their fuels
  have hmore := h.enter hsingle hsingle' (s := { pending := [⟨top.toPath, none⟩] })
    (max (plan.fs.nodes.length + 1) (plan'.fs.nodes.length + 1)) hstands
  rw [hstart, enter_of_le (le_max_left _ _) fun t => pending_eq_nil_of_enter h.tree hsingle h.start,
    enter_of_le (le_max_right _ _) fun t => pending_eq_nil_of_enter h.tree' hsingle' h.start'] at hmore
  refine hmore.map fun t t' hmoved => ?_
  rw [hmoved, WalkState.under, ← List.map_reverse]
  exact (List.map_mergeSort (f := SourceEntry.under top') fun _ _ _ _ => rfl).symm

end WalkPlan.Twins

/-! ## Content -/

end TreeImage
