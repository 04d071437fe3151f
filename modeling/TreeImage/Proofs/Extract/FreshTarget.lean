import TreeImage.Proofs.Extract.Preparation

set_option autoImplicit false

/-! # Fresh targets

A target is fresh if it is an empty directory, or if nothing is there and every directory on the way that is
missing can be made. The preparation of a run with a fresh target succeeds, and nothing is below the real
root after it. -/

namespace TreeImage

open FileSystem

variable {names above below d real : RealPath} {n m : Name} {fs fs' : FileSystem} {root : Path}

/-! ## Below a free entry -/

section Free

variable (hproper : RealPath.IsProper (above ++ n :: below)) (hd : fs.LeadsTo above.toPath d)
  (hfree : fs.get? (d ++ [n]) = none) (hnames : ∀ m ∈ n :: below, IsAcceptable m)

include hproper hd hfree hnames

/-- A walk does not get beyond an entry that is free. -/
theorem walk_below_free (followLast : Bool) :
    fs.walk followLast linkLimit [] ([] :: (above ++ n :: below)) = .error .notFound := by
  obtain ⟨habove, hbelow⟩ := RealPath.isProper_append.1 hproper
  have hn : IsProperName n := hbelow n List.mem_cons_self
  obtain ⟨-, hwalks, hdir⟩ := (leadsTo_toPath_iff habove).1 hd
  obtain ⟨links, hlinks⟩ := hwalks.append followLast
  have hshort := (hnames n List.mem_cons_self).2
  rw [← List.cons_append, hlinks _ (List.cons_ne_nil _ _), walk_cons_step hdir hn.isStep,
    if_neg (Nat.not_lt.2 hshort), hfree]

omit hfree in
theorem hasNul_below_free : (RealPath.toPath (above ++ n :: below)).hasNul = false := by
  have habove := ((leadsTo_toPath_iff (RealPath.isProper_append.1 hproper).1).1 hd).1
  rw [RealPath.hasNul_toPath] at habove ⊢
  rw [List.any_append, habove, Bool.false_or, List.any_eq_false]
  intro m hm
  rw [(hnames m hm).1]
  exact Bool.false_ne_true

theorem find_below_free (followLast : Bool) :
    fs.find followLast (RealPath.toPath (above ++ n :: below)) = .error .notFound := by
  rw [find, resolve_toPath hproper (hasNul_below_free hproper hd hnames),
    walk_below_free hproper hd hfree hnames]

theorem not_leadsTo_below_free (q : RealPath) : ¬fs.LeadsTo (RealPath.toPath (above ++ n :: below)) q := by
  intro hq
  obtain ⟨mode, hfind⟩ := hq.find
  cases (find_below_free hproper hd hfree hnames true).symm.trans hfind

end Free

/-- No directory is made below an entry that is free. -/
theorem makeDirectory_below_free (hproper : RealPath.IsProper (above ++ n :: below ++ [m]))
    (hd : fs.LeadsTo above.toPath d) (hfree : fs.get? (d ++ [n]) = none)
    (hnames : ∀ m' ∈ n :: below ++ [m], IsAcceptable m') :
    fs.makeDirectory (RealPath.toPath (above ++ n :: below ++ [m])) = .error .notFound := by
  have hnul : (RealPath.toPath (above ++ n :: below ++ [m])).hasNul = false := by
    rw [List.append_assoc] at hproper ⊢
    exact hasNul_below_free hproper hd hnames
  have hspot : fs.spot (RealPath.toPath (above ++ n :: below ++ [m])) = .error .notFound := by
    rw [spot_toPath hproper hnul, walk_below_free (RealPath.isProper_append.1 hproper).1 hd hfree
      fun m' hm' => hnames m' (List.mem_append_left _ hm')]
  rw [makeDirectory, hspot]

/-! ## The target -/

/-- The target is an empty directory, or nothing is there: some directory on the way is there, its next entry
    is free, and from there on directories can be made under the names. -/
inductive FreshTarget (fs : FileSystem) (root : Path) : Prop
  | empty {real : RealPath} (hleads : fs.LeadsTo root real)
      (hempty : ∀ q, real.Contains q → fs.get? q = none) : FreshTarget fs root
  | absent {above below d : RealPath} {n : Name} (hroot : root.normalNames = above ++ n :: below)
      (hd : fs.LeadsTo above.toPath d) (hfree : fs.get? (d ++ [n]) = none)
      (hnames : ∀ m ∈ n :: below, IsAcceptable m) : FreshTarget fs root

/-- It is enough that the table has nothing below the target. -/
theorem freshTarget_of_nodes {root : Path} (hleads : fs.LeadsTo root real)
    (h : fs.nodes.all (fun node => !real.isPrefixOf node.1 || node.1 == real) = true) : FreshTarget fs root := by
  refine .empty hleads fun q hq => ?_
  cases hget : fs.get? q with
  | none => rfl
  | some x =>
    obtain ⟨node, hnode, rfl⟩ := List.mem_map.1 (mem_nodes_of_get? (Option.isSome_iff_exists.2 ⟨x, hget⟩))
    have hnone := List.all_eq_true.1 h node hnode
    rw [List.isPrefixOf_iff_prefix.2 hq.1] at hnone
    exact absurd (beq_iff_eq.1 hnone).symm hq.2

/-- Below a fresh target there is nothing, also when it was made. -/
theorem FreshTarget.get?_below (h : FreshTarget fs names.toPath) (hnames : names.IsProper)
    (hclosed : fs.IsClosed) (hmade : RootMade names.toPath real fs fs') {q : RealPath} (hq : real.Contains q) :
    fs'.get? q = none := by
  rw [hmade.get?_below hq]
  rcases hmade.before with hleads | hnone
  · cases h with
    | empty hreal hempty =>
      obtain rfl := hreal.unique hleads
      exact hempty q hq
    | absent hroot hd hfree hacceptable =>
      rw [RealPath.normalNames_toPath hnames] at hroot
      subst hroot
      exact absurd hleads (not_leadsTo_below_free hnames hd hfree hacceptable real)
  · obtain ⟨rest, rfl⟩ := hq.1
    exact hclosed.get?_eq_none hnone

/-! ## Making what is missing -/

/-- Every directory that is missing on the way is made. -/
theorem run_makeAlong_missing (hclosed : fs.IsClosed) (hproper : RealPath.IsProper (above ++ n :: below))
    (hd : fs.LeadsTo above.toPath d) (hfree : fs.get? (d ++ [n]) = none)
    (hnames : ∀ m ∈ n :: below, IsAcceptable m) {k : Nat} (hk : k ≤ below.length) :
    ∃ fs', (makeAlong (above ++ n :: below) (above.length + 1 + k)).run answer fs = (.ok (), fs') := by
  have htake : ∀ k, (above ++ n :: below).take (above.length + 1 + k) = above ++ n :: below.take k := by
    intro k
    rw [Nat.add_assoc, List.take_length_add_append, Nat.add_comm, List.take_succ_cons]
  induction k with
  | zero =>
    have hfirst := htake 0
    have hproper' := hproper.take (above.length + 1 + 0)
    rw [hfirst, List.take_zero] at hproper'
    obtain ⟨mode, -, hmake⟩ := Names.makeDirectory_free ⟨above, hproper', rfl, hd⟩
      (hnames n List.mem_cons_self) hfree
    rw [Nat.add_zero, makeAlong]
    rw [Nat.add_zero, List.take_zero] at hfirst
    rw [hfirst]
    exact ⟨_, run_ask _ (answer_makeDirectory hmake) _⟩
  | succ k ih =>
    have hlt : k < below.length := hk
    obtain ⟨fs₁, hrun⟩ := ih (Nat.le_of_lt hlt)
    have hnext := htake (k + 1)
    rw [List.take_succ_eq_append_getElem hlt, ← List.cons_append, ← List.append_assoc] at hnext
    have hproper' := hproper.take (above.length + 1 + (k + 1))
    rw [hnext] at hproper'
    have hacceptable : ∀ m ∈ n :: below.take k ++ [below[k]], IsAcceptable m := by
      intro m hm
      rw [List.cons_append, ← List.take_succ_eq_append_getElem hlt] at hm
      exact hnames m (List.cons_subset_cons n (List.take_subset _ _) hm)
    have hmissing := makeDirectory_below_free hproper' hd hfree hacceptable
    -- the directory above is made first
    obtain ⟨hzero, -⟩ | ⟨real, hmade⟩ := run_makeAlong hclosed hproper (by simp; omega) hrun
    · omega
    · rw [htake k] at hmade
      have hgone : fs₁.get? (real ++ [below[k]]) = none := by
        rw [hmade.get?_below (contains_append (List.cons_ne_nil _ _))]
        refine hclosed.get?_eq_none (hmade.before.resolve_left ?_)
        have hbefore := (RealPath.isProper_append.1 hproper').1
        exact not_leadsTo_below_free hbefore hd hfree
          (fun m hm => hacceptable m (List.mem_append_left _ hm)) real
      obtain ⟨mode, -, hmake⟩ := Names.makeDirectory_free
        ⟨above ++ n :: below.take k, hproper', rfl, hmade.leads⟩
        (hacceptable _ (List.mem_append_right _ (List.mem_singleton_self _))) hgone
      have hlast : (makeOrAccept (RealPath.toPath (above ++ n :: below.take k ++ [below[k]]))).run answer fs₁ =
          (.ok (), _) := run_ask _ (answer_makeDirectory hmake) _
      rw [← Nat.add_assoc, makeAlong, Nat.add_assoc _ k 1, hnext]
      exact ⟨_, (run_ask _ (answer_makeDirectory_error hmissing) _).trans
        ((Program.run_bind_of_run hrun _).trans hlast)⟩

/-- **A fresh target can be prepared.** -/
theorem run_prepareRoot_fresh (hclosed : fs.IsClosed) (hnames : names.IsProper)
    (h : FreshTarget fs names.toPath) :
    ∃ realRoot fs', (prepareRoot names.toPath).run answer fs = (.ok realRoot, fs') := by
  have hsettle : ∀ {fs' : FileSystem} {real : RealPath}, fs'.LeadsTo names.toPath real →
      (do return (← Files.realPath names.toPath).mapError (.target names.toPath) :
        Program Files (Except ExtractError Path)).run answer fs' = (.ok real.toPath, fs') := by
    intro fs' real hleads
    have hreal : fs'.answer (.realPath names.toPath) = (.ok real.toPath, fs') := by rw [answer, hleads.realPath]
    exact run_ask (.realPath names.toPath) hreal _
  rw [prepareRoot]
  cases h with
  | @empty real hleads hempty =>
    obtain ⟨mode, hfind⟩ := hleads.find
    have hinspect : fs.answer (.inspect true names.toPath) = (.ok _, fs) :=
      congrArg (·, fs) (inspect_of_find hfind)
    exact ⟨_, fs, (run_ask _ hinspect _).trans (hsettle hleads)⟩
  | @absent above below d n hroot hd hfree hacceptable =>
    rw [RealPath.normalNames_toPath hnames] at hroot
    subst hroot
    have hinspect : fs.answer (.inspect true (RealPath.toPath (above ++ n :: below))) =
        (.error .notFound, fs) :=
      congrArg (·, fs) (inspect_of_find_error (find_below_free hnames hd hfree hacceptable true))
    obtain ⟨fs', hmake⟩ := run_makeAlong_missing hclosed hnames hd hfree hacceptable (Nat.le_refl _)
    have hlength : above.length + 1 + below.length = (above ++ n :: below).length := by
      simp only [List.length_append, List.length_cons]
      omega
    rw [hlength] at hmake
    obtain ⟨hzero, -⟩ | ⟨real, hmade⟩ := run_makeAlong hclosed hnames (Nat.le_refl _) hmake
    · omega
    · rw [List.take_length] at hmade
      have hmakes : (makeDirectories (RealPath.toPath (above ++ n :: below)).normalNames).run answer fs =
          (.ok (), fs') := by
        rw [RealPath.normalNames_toPath hnames]
        exact hmake
      exact ⟨real.toPath, fs', (run_ask _ hinspect _).trans
        ((Program.run_bind_of_run hmakes _).trans (hsettle hmade.leads))⟩

/-! ## The preparation -/

section Preparation

variable {strict : Bool} {entries : List Entry} {slots : List Slot} {options : ExtractOptions}
  {image : Image} {s : RunState}

/-- Entries whose paths are accepted have slots. -/
theorem exists_slotsFor (strict : Bool) (h : ∀ e ∈ entries, ∃ p, sanitize root e.path = .ok p) :
    ∃ slots, slotsFor root strict entries = .ok slots := by
  induction entries with
  | nil => exact ⟨[], rfl⟩
  | cons e rest ih =>
    obtain ⟨⟨p, hp⟩, hrest⟩ := List.forall_mem_cons.1 h
    obtain ⟨slots, hslots⟩ := ih hrest
    rw [slotsFor, hp, hslots]
    exact ⟨_, rfl⟩

/-- **A run with a fresh target that is not cancelled gets as far as the passes.** -/
theorem run_prepare_fresh (hnever : options.NeverCancels) (hcalm : s.IsCalm) (hclosed : s.fs.IsClosed)
    {cwd executable : Path} {target : Option Path} (hnames : names.IsProper)
    (hroot : resolveRoot cwd executable options.defaultRoot target = .ok names.toPath)
    (hslots : slotsFor names.toPath options.strict (image.manifest.select options.filter) = .ok slots)
    (hfresh : FreshTarget s.fs names.toPath) :
    ∃ real s', (prepare options cwd executable image target).run (RunState.handler options) s =
        (.ok (planFor options names.toPath real.toPath slots, slots), s') ∧
      RootMade names.toPath real s.fs s'.fs ∧ s'.IsCalm := by
  obtain ⟨hlooked, hcalm'⟩ := RunState.lookAtToken_calm hnever hcalm
  obtain ⟨hfs, -⟩ := s.fs_lookAtToken options.cancelToken
  generalize htoken : s.lookAtToken options.cancelToken = looked at hlooked hcalm' hfs
  obtain ⟨cancelled, t⟩ := looked
  dsimp only at hlooked hcalm' hfs
  subst hlooked
  rw [← hfs] at hclosed hfresh
  obtain ⟨realRoot, fs', hprepare⟩ := run_prepareRoot_fresh hclosed hnames hfresh
  obtain ⟨real, rfl, hmade⟩ := run_prepareRoot hclosed hnames hprepare
  obtain ⟨hresult, hfs', hcalm''⟩ := run_onFiles options (prepareRoot names.toPath) t
  rw [hprepare] at hresult hfs'
  refine ⟨real, ((Session.onFiles (prepareRoot names.toPath)).run (RunState.handler options) t).2, ?_, ?_,
    hcalm'' hcalm'⟩
  · have hlook : Session.isCancelled.run (RunState.handler options) s = (false, t) := htoken
    rw [prepare]
    refine (Program.run_bind_of_run hlook _).trans ?_
    simp only [hroot, hslots]
    refine (Program.run_bind _ _ _ _).trans ?_
    rw [hresult]
    rfl
  · rw [← hfs, hfs']
    exact hmade

end Preparation

end TreeImage
