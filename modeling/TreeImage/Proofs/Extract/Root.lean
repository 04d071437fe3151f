import TreeImage.Extract.Run
import TreeImage.Proofs.Extract.Confinement
import TreeImage.Proofs.Extract.Destination

set_option autoImplicit false

/-! # Preparing the target root

What `prepareRoot` makes are missing directories on the way to the root, and the real root that it reports
is where the root leads afterwards. -/

namespace TreeImage

open FileSystem

variable {names : RealPath} {fs : FileSystem} {p : Path}

/-- The top of the file system is a directory if it is anything. -/
theorem leadsTo_top {q : RealPath} (h : fs.resolve true (RealPath.toPath []) = .ok q) :
    fs.LeadsTo (RealPath.toPath []) q := by
  refine ⟨h, ?_⟩
  obtain ⟨-, -, hwalks⟩ := resolve_eq_ok_iff.1 h
  have hwalk := walk_eq_ok_iff.2 hwalks
  rw [RealPath.rawSegments_nil] at hwalk
  have hbase := isDirectoryAt_of_walk hwalk
  rw [walk_cons hbase, if_pos (.inl rfl), walk_cons hbase, if_pos (.inl rfl), walk_nil] at hwalk
  cases hwalk
  exact hbase

/-! ## Missing directories -/

theorem acceptDirectory_obeys (p : Path) (e : Refusal) :
    (do if ← Files.isDirectory p then return .ok () else return .error e :
      Program Files (Except Refusal Unit)).Obeys (tidy names)
      (fun result _ fs' => result = .ok () → ∃ q, fs'.LeadsTo p q) () fs := by
  refine obeys_isDirectory ?_
  split
  · next hdir => exact fun _ => isDirectory_iff.1 hdir
  · rintro ⟨⟩

theorem makeOrAccept_obeys (hmade : ∀ fs', fs.makeDirectory p = .ok fs' →
      FileSystem.Confined names fs fs' ∧ ∃ q, fs'.LeadsTo p q) :
    (makeOrAccept p).Obeys (tidy names)
      (fun result _ fs' => result = .ok () → ∃ q, fs'.LeadsTo p q) () fs := by
  refine obeys_makeDirectory (fun e _ => acceptDirectory_obeys p e) ?_
  intro fs' hmake
  obtain ⟨hconfined, hleads⟩ := hmade fs' hmake
  exact ⟨hconfined, fun _ => hleads⟩

/-- A directory that is made on the way to `names` is a touchable place. -/
theorem makeDirectory_take_eq_ok (hnames : names.IsProper) {depth : Nat} (hdepth : depth < names.length)
    {fs' : FileSystem}
    (h : fs.makeDirectory (RealPath.toPath (names.take (depth + 1))) = .ok fs') :
    FileSystem.Confined names fs fs' ∧
      ∃ q, fs'.LeadsTo (RealPath.toPath (names.take (depth + 1))) q := by
  have hproper := hnames.take (depth + 1)
  rw [List.take_succ_eq_append_getElem hdepth] at h hproper
  obtain ⟨d, mode, -, hnone, rfl, hleads⟩ := makeDirectory_entry_eq_ok hproper h
  rw [← List.take_succ_eq_append_getElem hdepth] at hleads
  refine ⟨⟨keeps_put_new hnone _, (agreeOutside_put fs _ _).imp ?_⟩, _, hleads⟩
  rintro q rfl
  exact .inr ⟨hnone, depth + 1, hleads⟩

/-- The directories on the way to `names`, down to the first `depth` names. -/
theorem makeAlong_obeys (hnames : names.IsProper) {depth : Nat} (hdepth : depth ≤ names.length) :
    (makeAlong names depth).Obeys (tidy names)
      (fun result _ fs' => result = .ok () →
        depth = 0 ∨ ∃ q, fs'.LeadsTo (RealPath.toPath (names.take depth)) q) () fs := by
  induction depth generalizing fs with
  | zero => exact fun _ => .inl rfl
  | succ depth ih =>
    have hmade : ∀ fs fs' : FileSystem,
        fs.makeDirectory (RealPath.toPath (names.take (depth + 1))) = .ok fs' →
        FileSystem.Confined names fs fs' ∧
          ∃ q, fs'.LeadsTo (RealPath.toPath (names.take (depth + 1))) q :=
      fun _ _ => makeDirectory_take_eq_ok hnames hdepth
    have hlater : ∀ {q : Program Files (Except Refusal Unit)} {fs : FileSystem}, q.Obeys (tidy names)
        (fun result _ fs' => result = .ok () →
          ∃ q, fs'.LeadsTo (RealPath.toPath (names.take (depth + 1))) q) () fs →
        q.Obeys (tidy names) (fun result _ fs' => result = .ok () →
          depth + 1 = 0 ∨ ∃ q, fs'.LeadsTo (RealPath.toPath (names.take (depth + 1))) q) () fs :=
      fun h => h.imp fun _ _ _ hresult hok => .inr (hresult hok)
    rw [makeAlong]
    refine obeys_makeDirectory ?_ ?_
    · intro e _
      cases e with
      | notFound =>
        -- the directory above is missing too: that one first, then this one once more
        refine (ih (Nat.le_of_succ_le hdepth)).bind ?_
        rintro (e | ⟨⟩) ⟨⟩ fs' -
        · rintro ⟨⟩
        · exact hlater (makeOrAccept_obeys (hmade fs'))
      | _ => exact hlater (acceptDirectory_obeys _ _)
    · intro fs' hmake
      obtain ⟨hconfined, hleads⟩ := hmade fs fs' hmake
      exact ⟨hconfined, fun _ => .inr hleads⟩

/-! ## The root -/

/-- However the root came to be there, its real path is where it leads. -/
theorem reportRoot_obeys (hleads : names = [] ∨ ∃ q, fs.LeadsTo names.toPath q) :
    (do return (← Files.realPath names.toPath).mapError (.target names.toPath) :
      Program Files (Except ExtractError Path)).Obeys (tidy names)
      (fun result _ fs' => ∀ realRoot, result = .ok realRoot →
        ∃ real, fs'.LeadsTo names.toPath real ∧ realRoot = real.toPath) () fs := by
  refine obeys_realPath ?_
  intro realRoot hok
  cases hreal : fs.realPath names.toPath with
  | error e =>
    rw [hreal] at hok
    cases hok
  | ok real =>
    rw [hreal] at hok
    cases hok
    obtain ⟨q, hresolve, rfl⟩ := realPath_eq_ok hreal
    rcases hleads with rfl | ⟨q', hq'⟩
    · exact ⟨q, leadsTo_top hresolve, rfl⟩
    · obtain rfl : q' = q := Except.ok.inj (hq'.1.symm.trans hresolve)
      exact ⟨q', hq', rfl⟩

/-- A root that is prepared leads to the directory that is reported. -/
theorem prepareRoot_obeys (hnames : names.IsProper) :
    (prepareRoot names.toPath).Obeys (tidy names)
      (fun result _ fs' => ∀ realRoot, result = .ok realRoot →
        ∃ real, fs'.LeadsTo names.toPath real ∧ realRoot = real.toPath) () fs := by
  rw [prepareRoot]
  refine obeys_inspect ?_
  cases hinspect : fs.inspect true names.toPath with
  | ok info =>
    show Program.Obeys _ _ (if info.isDirectory then _ else _) _ _
    split
    · next hdir =>
      refine reportRoot_obeys (.inr (isDirectory_iff.1 ?_))
      rw [isDirectory, hinspect]
      exact hdir
    · rintro _ ⟨⟩
  | error e =>
    cases e with
    | notFound =>
      rw [RealPath.normalNames_toPath hnames]
      refine (makeAlong_obeys hnames (Nat.le_refl _)).bind ?_
      rintro (e | ⟨⟩) ⟨⟩ fs' hmade
      · rintro _ ⟨⟩
      · refine reportRoot_obeys ((hmade rfl).imp (fun h => List.eq_nil_of_length_eq_zero h) ?_)
        rw [List.take_length]
        exact id
    | _ => rintro _ ⟨⟩

end TreeImage
