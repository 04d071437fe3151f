import TreeImage.Proofs.Extract.DirectoryResults
import TreeImage.Proofs.Extract.Root

set_option autoImplicit false

/-! # What the preparation of a run does

In a closed file system the directories that are made for a root are missing ones on the way to the real
root, and nothing lay below a real root that was missing. Every selected entry gets a slot. -/

namespace TreeImage

open FileSystem

variable {names r real d : RealPath} {n : Name} {fs fs₁ fs₂ fs' : FileSystem} {p : Path}

/-- The path leads to a real root. Everything that was made for it lies on the way there, and if it did not
    lead there before, nothing was there. -/
structure RootMade (p : Path) (real : RealPath) (fs fs' : FileSystem) : Prop where
  leads : fs'.LeadsTo p real
  closed : fs'.IsClosed
  makes : ∃ S, MakesDirectories S fs fs' ∧ ∀ q, S q → q <+: real
  before : fs.LeadsTo p real ∨ fs.get? real = none

theorem RootMade.refl (hclosed : fs.IsClosed) (h : fs.LeadsTo p real) : RootMade p real fs fs :=
  ⟨h, hclosed, ⟨_, .refl fs, nofun⟩, .inl h⟩

/-- A directory is made in one that is there. -/
theorem RootMade.makeDirectory (hclosed : fs.IsClosed) (hproper : RealPath.IsProper (r ++ [n]))
    (h : fs.makeDirectory (RealPath.toPath (r ++ [n])) = .ok fs') :
    ∃ d, fs.LeadsTo r.toPath d ∧ RootMade (RealPath.toPath (r ++ [n])) (d ++ [n]) fs fs' := by
  obtain ⟨d, mode, hd, hnone, rfl, hleads⟩ := makeDirectory_entry_eq_ok hproper h
  have hmakes := MakesDirectories.put hnone mode
  refine ⟨d, hd, hleads, hmakes.isClosed hclosed ?_, ⟨_, hmakes, fun q hq => hq ▸ List.prefix_rfl⟩, .inr hnone⟩
  intro q m hq
  obtain ⟨rfl, -⟩ := List.append_inj' hq rfl
  exact hmakes.keeps.directory q hd.2

/-- A root in a root that was made. -/
theorem RootMade.trans (h : RootMade r.toPath d fs fs₁)
    (h' : RootMade (RealPath.toPath (r ++ [n])) (d ++ [n]) fs₁ fs') (hnone : fs₁.get? (d ++ [n]) = none) :
    RootMade (RealPath.toPath (r ++ [n])) (d ++ [n]) fs fs' := by
  obtain ⟨S, hmakes, hS⟩ := h.makes
  obtain ⟨T, hmakes', hT⟩ := h'.makes
  refine ⟨h'.leads, h'.closed, ⟨_, hmakes.trans hmakes', ?_⟩, .inr (hmakes.get?_eq_none hnone)⟩
  rintro q (hq | hq)
  · exact (hS q hq).trans (List.prefix_append d [n])
  · exact hT q hq

/-- What is on the way to a directory is there. -/
theorem not_made_of_prefix {S : RealPath → Prop} (hclosed : fs.IsClosed) (hmakes : MakesDirectories S fs fs')
    (hdir : fs.isDirectoryAt d = true) {q : RealPath} (hq : q <+: d) : ¬S q := by
  intro hS
  obtain ⟨rest, rfl⟩ := hq
  obtain ⟨mode, hmode⟩ := isDirectoryAt_iff.1 hdir
  cases (hclosed.get?_eq_none (hmakes.made q hS).1).symm.trans hmode

/-- An entry that is accepted because it is there. -/
theorem RootMade.accept (h : RootMade r.toPath d fs fs₁) (hclosed : fs.IsClosed)
    (hproper : RealPath.IsProper (r ++ [n])) (hleads : fs₁.LeadsTo (RealPath.toPath (r ++ [n])) real) :
    RootMade (RealPath.toPath (r ++ [n])) real fs fs₁ := by
  obtain ⟨S, hmakes, hS⟩ := h.makes
  rcases h.before with hbefore | hnone
  · -- nothing was made, so the entry was there before
    have hnothing : ∀ q, ¬S q := fun q hq => not_made_of_prefix hclosed hmakes hbefore.2 (hS q hq) hq
    have hback : Keeps fs₁ fs := by
      refine ⟨hmakes.outside.cwd.symm, ?_, ?_⟩
      · intro q hq
        rwa [isDirectoryAt, ← hmakes.outside.get? q (hnothing q)]
      · intro q target hq
        rw [← hmakes.outside.get? q (hnothing q), hq]
    exact ⟨hleads, h.closed, ⟨S, hmakes, fun q hq => absurd hq (hnothing q)⟩, .inl (hback.leadsTo hleads)⟩
  · -- nothing is in a directory that was only just made
    exfalso
    have hfree : fs₁.get? (d ++ [n]) = none := by
      rw [hmakes.outside.get?, hclosed.get?_eq_none hnone]
      intro hq
      have hlength := (hS _ hq).length_le
      rw [List.length_append, List.length_singleton] at hlength
      omega
    have hlink : ∀ target, fs₁.get? (d ++ [n]) ≠ some (.symlink target) := by simp [hfree]
    obtain ⟨mode, hfind⟩ := hleads.find
    rw [find_entry_follow hproper h.leads hlink] at hfind
    obtain ⟨-, -, rfl, hget⟩ := find_entry_eq_ok hproper h.leads hfind
    cases hfree.symm.trans hget

theorem RootMade.get?_below {q : RealPath} (h : RootMade p real fs fs') (hq : real.Contains q) :
    fs'.get? q = fs.get? q := by
  obtain ⟨S, hmakes, hS⟩ := h.makes
  refine hmakes.outside.get? q fun hq' => hq.2 ?_
  exact ((hS q hq').eq_of_length_le hq.1.length_le).symm

theorem RootMade.keeps (h : RootMade p real fs fs') : Keeps fs fs' := by
  obtain ⟨S, hmakes, -⟩ := h.makes
  exact hmakes.keeps

theorem run_acceptDirectory {err : Refusal}
    (h : (do if ← Files.isDirectory p then return .ok () else return .error err :
      Program Files (Except Refusal Unit)).run answer fs = (.ok (), fs')) :
    fs' = fs ∧ ∃ q, fs.LeadsTo p q := by
  replace h := (Program.run_bind _ _ _ _).symm.trans h
  rw [run_isDirectory] at h
  change Program.run _ (if fs.isDirectory p then _ else _) _ = _ at h
  split at h
  · next hdir =>
    cases h
    exact ⟨rfl, isDirectory_iff.1 hdir⟩
  · cases h

/-- A directory that is made, or accepted because it is there. -/
theorem run_makeOrAccept (h : (makeOrAccept p).run answer fs = (.ok (), fs')) :
    fs.makeDirectory p = .ok fs' ∨ fs' = fs ∧ ∃ q, fs.LeadsTo p q := by
  rw [makeOrAccept] at h
  cases hmake : fs.makeDirectory p with
  | ok fs₁ =>
    replace h := (run_ask _ (answer_makeDirectory hmake) _).symm.trans h
    cases h
    exact .inl rfl
  | error err =>
    replace h := (run_ask _ (answer_makeDirectory_error hmake) _).symm.trans h
    exact .inr (run_acceptDirectory h)

theorem run_makeAlong (hclosed : fs.IsClosed) (hnames : names.IsProper) {depth : Nat}
    (hdepth : depth ≤ names.length) (h : (makeAlong names depth).run answer fs = (.ok (), fs')) :
    depth = 0 ∧ fs' = fs ∨ ∃ real, RootMade (RealPath.toPath (names.take depth)) real fs fs' := by
  induction depth generalizing fs fs' with
  | zero =>
    cases h
    exact .inl ⟨rfl, rfl⟩
  | succ depth ih =>
    right
    have hproper := hnames.take (depth + 1)
    rw [List.take_succ_eq_append_getElem hdepth] at hproper ⊢
    rw [makeAlong] at h
    simp only [List.take_succ_eq_append_getElem hdepth] at h
    cases hmake : fs.makeDirectory (RealPath.toPath (names.take depth ++ [names[depth]])) with
    | ok fs₁ =>
      replace h := (run_ask _ (answer_makeDirectory hmake) _).symm.trans h
      cases h
      obtain ⟨d, -, hmade⟩ := RootMade.makeDirectory hclosed hproper hmake
      exact ⟨_, hmade⟩
    | error err =>
      replace h := (run_ask _ (answer_makeDirectory_error hmake) _).symm.trans h
      have haccept : ∀ {fs'}, (fs' = fs ∧ ∃ q, fs.LeadsTo (RealPath.toPath (names.take depth ++ [names[depth]])) q) →
          ∃ real, RootMade (RealPath.toPath (names.take depth ++ [names[depth]])) real fs fs' := by
        rintro _ ⟨rfl, real, hleads⟩
        exact ⟨real, .refl hclosed hleads⟩
      cases err with
      | notFound =>
        -- the directory above is missing too: that one first, then this one once more
        replace h := (Program.run_bind _ _ _ _).symm.trans h
        cases habove : (makeAlong names depth).run answer fs with
        | mk result fs₁ =>
          rw [habove] at h
          cases result with
          | error err => cases h
          | ok _ =>
            rcases ih hclosed (Nat.le_of_succ_le hdepth) habove with ⟨-, rfl⟩ | ⟨d, hd⟩
            · rcases run_makeOrAccept h with hmake | hthere
              · obtain ⟨d, -, hmade⟩ := RootMade.makeDirectory hclosed hproper hmake
                exact ⟨_, hmade⟩
              · exact haccept hthere
            · rcases run_makeOrAccept h with hmake | ⟨rfl, real, hleads⟩
              · obtain ⟨d', hd', hmade⟩ := RootMade.makeDirectory hd.closed hproper hmake
                obtain rfl := hd'.unique hd.leads
                obtain ⟨_, _, hleads, hnone, -⟩ := makeDirectory_entry_eq_ok hproper hmake
                obtain rfl := hleads.unique hd'
                exact ⟨_, hd.trans hmade hnone⟩
              · exact ⟨real, hd.accept hclosed hproper hleads⟩
      | _ => exact haccept (run_acceptDirectory h)

/-- The real path of a root is where it leads, if it leads to a directory or is the top. -/
theorem run_settleRoot {realRoot : Path} (hleads : names = [] ∨ ∃ q, fs.LeadsTo names.toPath q)
    (h : (do return (← Files.realPath names.toPath).mapError (.target names.toPath) :
      Program Files (Except ExtractError Path)).run answer fs = (.ok realRoot, fs')) :
    fs' = fs ∧ ∃ real, fs.LeadsTo names.toPath real ∧ realRoot = real.toPath := by
  replace h := (run_ask (.realPath names.toPath) rfl _).symm.trans h
  cases hreal : fs.realPath names.toPath with
  | error e =>
    rw [hreal] at h
    cases h
  | ok path =>
    rw [hreal] at h
    cases h
    obtain ⟨q, hresolve, rfl⟩ := realPath_eq_ok hreal
    refine ⟨rfl, q, ?_, rfl⟩
    rcases hleads with rfl | ⟨q', hq'⟩
    · exact leadsTo_top hresolve
    · obtain rfl : q' = q := Except.ok.inj (hq'.1.symm.trans hresolve)
      exact hq'

/-- **What is made for a root** are missing directories on the way to the real root. -/
theorem run_prepareRoot (hclosed : fs.IsClosed) (hnames : names.IsProper) {realRoot : Path}
    (h : (prepareRoot names.toPath).run answer fs = (.ok realRoot, fs')) :
    ∃ real, realRoot = real.toPath ∧ RootMade names.toPath real fs fs' := by
  have hthere : ∀ {fs'}, (fs' = fs ∧ ∃ real, fs.LeadsTo names.toPath real ∧ realRoot = real.toPath) →
      ∃ real, realRoot = real.toPath ∧ RootMade names.toPath real fs fs' := by
    rintro _ ⟨rfl, real, hleads, hreal⟩
    exact ⟨real, hreal, .refl hclosed hleads⟩
  rw [prepareRoot] at h
  replace h := (run_ask (.inspect true names.toPath) rfl _).symm.trans h
  cases hinspect : fs.inspect true names.toPath with
  | ok info =>
    rw [hinspect] at h
    change Program.run _ (if info.isDirectory then _ else _) _ = _ at h
    split at h
    · next hdir =>
      refine hthere (run_settleRoot (.inr (isDirectory_iff.1 ?_)) h)
      rw [isDirectory, hinspect]
      exact hdir
    · cases h
  | error e =>
    rw [hinspect] at h
    cases e with
    | notFound =>
      rw [RealPath.normalNames_toPath hnames] at h
      replace h := (Program.run_bind _ _ _ _).symm.trans h
      cases halong : (makeDirectories names).run answer fs with
      | mk result fs₁ =>
        rw [halong] at h
        cases result with
        | error err => cases h
        | ok _ =>
          rcases run_makeAlong hclosed hnames (Nat.le_refl _) halong with ⟨hzero, rfl⟩ | ⟨real, hmade⟩
          · exact hthere (run_settleRoot (.inl (List.eq_nil_of_length_eq_zero hzero)) h)
          · rw [List.take_length] at hmade
            obtain ⟨rfl, real', hleads, rfl⟩ := run_settleRoot (.inr ⟨real, hmade.leads⟩) h
            obtain rfl := hleads.unique hmade.leads
            exact ⟨real', rfl, hmade⟩
    | _ => cases h

/-! ## Slots and a plan -/

variable {root : Path} {strict : Bool} {e : Entry} {entries : List Entry} {slot : Slot} {slots : List Slot}
  {plan : RunPlan} {options : ExtractOptions} {image : Image} {s s' : RunState}

/-- The slot that an entry starts with: with its destination, or with the failure of its path. -/
def Slot.Opened (root : Path) (e : Entry) (slot : Slot) : Prop :=
  (∃ p, sanitize root e.path = .ok p ∧ slot = { entry := e, destination := some p }) ∨
    ∃ err, sanitize root e.path = .error err ∧
      slot = { entry := e, destination := none, outcome := some (.ofError err) }

namespace Slot.Opened

theorem entry (h : slot.Opened root e) : slot.entry = e := by
  obtain ⟨p, -, rfl⟩ | ⟨err, -, rfl⟩ := h <;> rfl

theorem made (h : slot.Opened root e) : slot.made = false := by
  obtain ⟨p, -, rfl⟩ | ⟨err, -, rfl⟩ := h <;> rfl

theorem destination {p : Path} (h : slot.Opened root e) (hp : slot.destination = some p) :
    sanitize root slot.entry.path = .ok p := by
  obtain ⟨p', hp', rfl⟩ | ⟨err, -, rfl⟩ := h
  · cases hp
    exact hp'
  · cases hp

/-- An entry whose path is accepted has nothing happen to it so far. -/
theorem of_sanitize {p : Path} (h : slot.Opened root e) (hp : sanitize root e.path = .ok p) :
    slot.destination = some p ∧ slot.outcome = none := by
  obtain ⟨p', hp', rfl⟩ | ⟨err, herr, rfl⟩ := h
  · cases hp.symm.trans hp'
    exact ⟨rfl, rfl⟩
  · cases hp.symm.trans herr

end Slot.Opened

theorem slotsFor_opened (h : slotsFor root strict entries = .ok slots) :
    List.Forall₂ (fun e slot => Slot.Opened root e slot) entries slots := by
  induction entries generalizing slots with
  | nil =>
    cases h
    exact .nil
  | cons e entries ih =>
    rw [slotsFor] at h
    cases hrest : slotsFor root strict entries with
    | error err =>
      rw [hrest] at h
      split at h
      · cases h
      · split at h <;> cases h
    | ok rest =>
      rw [hrest] at h
      split at h
      · next p hp =>
        cases h
        exact .cons (.inl ⟨p, hp, rfl⟩) (ih hrest)
      · next err herr =>
        split at h
        · cases h
        · cases h
          exact .cons (.inr ⟨err, herr, rfl⟩) (ih hrest)

theorem map_entry_of_opened (h : List.Forall₂ (fun e slot => Slot.Opened root e slot) entries slots) :
    slots.map (·.entry) = entries := by
  induction h with
  | nil => rfl
  | cons hslot _ ih => rw [List.map_cons, hslot.entry, ih]

/-- Of a preparation only preparing the root shows in the file system, and that comes last. -/
theorem run_prepare_cases {cwd executable : Path} {target : Option Path}
    {result : Except ExtractError (RunPlan × List Slot)}
    (h : (prepare options cwd executable image target).run (RunState.handler options) s = (result, s')) :
    (s'.fs = s.fs ∧ ∃ err, result = .error err) ∨
    ∃ root slots prepared, resolveRoot cwd executable options.defaultRoot target = .ok root ∧
      slotsFor root options.strict (image.manifest.select options.filter) = .ok slots ∧
      (prepareRoot root).run answer s.fs = (prepared, s'.fs) ∧
      result = prepared.map fun realRoot => (planFor options root realRoot slots, slots) := by
  obtain ⟨hlooked, -⟩ := s.fs_lookAtToken options.cancelToken
  rw [prepare] at h
  replace h := (Program.run_bind _ _ _ _).symm.trans h
  change Program.run _ (if (s.lookAtToken options.cancelToken).1 then _ else _)
    (s.lookAtToken options.cancelToken).2 = _ at h
  generalize s.lookAtToken options.cancelToken = looked at h hlooked
  split at h
  · cases h
    exact .inl ⟨hlooked, _, rfl⟩
  · cases hroot : resolveRoot cwd executable options.defaultRoot target with
    | error err =>
      rw [hroot] at h
      cases h
      exact .inl ⟨hlooked, _, rfl⟩
    | ok root =>
      cases hslots : slotsFor root options.strict (image.manifest.select options.filter) with
      | error err =>
        simp only [hroot, hslots] at h
        cases h
        exact .inl ⟨hlooked, _, rfl⟩
      | ok slots =>
        simp only [hroot, hslots] at h
        replace h := (Program.run_bind _ _ _ _).symm.trans h
        obtain ⟨hresult, hfs, -⟩ := run_onFiles options (prepareRoot root) looked.2
        rw [hlooked] at hresult hfs
        cases hprepare : (prepareRoot root).run answer s.fs with
        | mk prepared fs₁ =>
          rw [hprepare] at hresult hfs
          rw [hresult] at h
          refine .inr ⟨root, slots, prepared, rfl, hslots, ?_⟩
          cases prepared <;>
          · cases h
            exact ⟨hprepare.trans (by rw [hfs]), rfl⟩

/-- What a preparation that succeeds does: nothing of it but preparing the root shows in the file system. -/
theorem run_prepare_eq_ok {cwd executable : Path} {target : Option Path}
    (h : (prepare options cwd executable image target).run (RunState.handler options) s =
      (.ok (plan, slots), s')) :
    ∃ root realRoot, resolveRoot cwd executable options.defaultRoot target = .ok root ∧
      slotsFor root options.strict (image.manifest.select options.filter) = .ok slots ∧
      plan = planFor options root realRoot slots ∧
      (prepareRoot root).run answer s.fs = (.ok realRoot, s'.fs) := by
  obtain ⟨-, _, heq⟩ | ⟨root, slots', _ | realRoot, hroot, hslots, hprepare, heq⟩ := run_prepare_cases h
  · cases heq
  · cases heq
  · cases heq
    exact ⟨root, realRoot, hroot, hslots, rfl, hprepare⟩

end TreeImage
