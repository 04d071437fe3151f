import TreeImage.Extract.Destination
import TreeImage.Proofs.Path.NormalForm

set_option autoImplicit false

/-! # The target root that a path stands for

A target is refused only if it is empty or holds a NUL byte. Any other target stands for a normal form: that of the
path as seen from the working directory, which no double dot leads above the root of the file system. Targets are
resolved in one go or name by name with the same result (`resolveRoot_clamps`), as long as there is something left to
resolve (`resolveRoot_nothing_left`). -/

namespace TreeImage

open TreeImage.Path

variable {cwd executable target root : Path} {default : DefaultRoot}

theorem resolveRoot_target_eq_ok_iff : resolveRoot cwd executable default (some target) = .ok root ↔
    (target.isEmpty = false ∧ target.hasNul = false) ∧ (cwd.join target).normal = root := by
  rw [resolveRoot, absoluteRoot]
  cases target.isEmpty <;> cases target.hasNul <;> simp

theorem resolveRoot_target_fails_iff : (∃ err, resolveRoot cwd executable default (some target) = .error err) ↔
    target.isEmpty = true ∨ target.hasNul = true := by
  rw [resolveRoot, absoluteRoot]
  cases target.isEmpty <;> cases target.hasNul <;> simp

/-- What is resolved once stands for itself, whatever the working directory is. -/
theorem resolveRoot_root (habsolute : cwd.isAbsolute = true) (hnul : cwd.hasNul = false)
    (h : resolveRoot cwd executable default (some target) = .ok root) (cwd' : Path) :
    resolveRoot cwd' executable default (some root) = .ok root := by
  obtain ⟨⟨-, htarget⟩, rfl⟩ := resolveRoot_target_eq_ok_iff.1 h
  have hroot : cwd'.join (cwd.join target).normal = (cwd.join target).normal :=
    if_pos (isNormal_normal _).absolute
  refine resolveRoot_target_eq_ok_iff.2 ⟨⟨rfl, ?_⟩, ?_⟩
  · exact hasNul_normal (isAbsolute_join habsolute target) (hasNul_join hnul htarget)
  · rw [hroot, normal_normal]

/-- A target can be resolved up to any of its slashes first, if something stands behind that slash. -/
theorem resolveRoot_followedBy (h : resolveRoot cwd executable default (some target) = .ok root) {more r : Path}
    (hrelative : more.isAbsolute = false) (hmore : more.isEmpty = false) :
    resolveRoot cwd executable default (some (target.followedBy more)) = .ok r ↔
      resolveRoot root executable default (some more) = .ok r := by
  obtain ⟨⟨hempty, htarget⟩, rfl⟩ := resolveRoot_target_eq_ok_iff.1 h
  have hne : target.bytes ≠ [] := by simpa [isEmpty] using hempty
  have hjoin : (cwd.join target).bytes ≠ [] := by
    unfold join
    split
    · exact hne
    · split <;> simp [hne]
  rw [resolveRoot_target_eq_ok_iff, resolveRoot_target_eq_ok_iff, isEmpty_followedBy, hasNul_followedBy, htarget,
    Bool.false_or, hmore, join_followedBy cwd hne, normal_followedBy hjoin hrelative]

/-- **A target stands for a clamped normal form.** It is refused exactly if it is empty or holds a NUL byte. Otherwise
    its root is in normal form, with the names that the steps of the target, seen from the working directory, lead to.
    The root stands for itself from anywhere, and a relative path that follows the target leads where it leads from the
    root. -/
theorem resolveRoot_clamps (cwd executable target : Path) (default : DefaultRoot) (habsolute : cwd.isAbsolute = true)
    (hnul : cwd.hasNul = false) :
    ((∃ err, resolveRoot cwd executable default (some target) = .error err) ↔
      target.isEmpty = true ∨ target.hasNul = true) ∧
    ∀ root, resolveRoot cwd executable default (some target) = .ok root →
      root.IsNormal ∧
      (∃ names, Climbs (cwd.join target).components names ∧ root.components = .root :: names.map .name) ∧
      (∀ cwd', resolveRoot cwd' executable default (some root) = .ok root) ∧
      ∀ more, more.isAbsolute = false → more.isEmpty = false → ∀ r,
        resolveRoot cwd executable default (some (target.followedBy more)) = .ok r ↔
          resolveRoot root executable default (some more) = .ok r := by
  refine ⟨resolveRoot_target_fails_iff, fun root h => ?_⟩
  refine ⟨?_, ?_, resolveRoot_root habsolute hnul h, fun more hrelative hmore r =>
    resolveRoot_followedBy h hrelative hmore⟩
  · rw [← (resolveRoot_target_eq_ok_iff.1 h).2]
    exact isNormal_normal _
  · rw [← (resolveRoot_target_eq_ok_iff.1 h).2]
    exact ⟨_, (climbs_iff (isAbsolute_join habsolute target)).2 rfl, components_normal _⟩

/-- Double dots beyond the root, doubled slashes, single dots and a final slash, and then a path that goes up again. -/
theorem resolveRoot_clamps_beyond_root :
    (Path.ofString "/usr/lib").isAbsolute = true ∧ (Path.ofString "/usr/lib").hasNul = false ∧
    resolveRoot (.ofString "/usr/lib") ⟨[]⟩ .currentDirectory (some (.ofString "../../..//./srv/x/")) =
      .ok (.ofString "/srv/x") ∧
    (Path.ofString "/srv/x").IsNormal ∧
    resolveRoot (.ofString "/usr/lib") ⟨[]⟩ .currentDirectory
      (some ((Path.ofString "../../..//./srv/x/").followedBy (.ofString "../y"))) = .ok (.ofString "/srv/y") := by
  have hroot : resolveRoot (.ofString "/usr/lib") ⟨[]⟩ .currentDirectory
      (some (.ofString "../../..//./srv/x/")) = .ok (.ofString "/srv/x") := rfl
  obtain ⟨hnormal, -, -, hmore⟩ := (resolveRoot_clamps (.ofString "/usr/lib") ⟨[]⟩ (.ofString "../../..//./srv/x/")
    .currentDirectory (by decide) (by decide)).2 _ hroot
  refine ⟨by decide, by decide, hroot, hnormal, ?_⟩
  exact (hmore (.ofString "../y") (by decide) (by decide) (.ofString "/srv/y")).2 rfl

/-- Nothing behind a slash is no target of its own: the target with the slash is resolved, the rest is refused. -/
theorem resolveRoot_nothing_left :
    resolveRoot (.ofString "/") ⟨[]⟩ .currentDirectory (some (.ofString "usr/lib")) = .ok (.ofString "/usr/lib") ∧
    ¬∀ more : Path, more.isAbsolute = false → ∀ r,
      resolveRoot (.ofString "/") ⟨[]⟩ .currentDirectory (some ((Path.ofString "usr/lib").followedBy more)) = .ok r ↔
        resolveRoot (.ofString "/usr/lib") ⟨[]⟩ .currentDirectory (some more) = .ok r := by
  refine ⟨rfl, fun h => ?_⟩
  have hleft := (h (.ofString "") (by decide) (.ofString "/usr/lib")).1 rfl
  have hrefused : resolveRoot (.ofString "/usr/lib") ⟨[]⟩ .currentDirectory (some (.ofString "")) =
      .error (.invalidRoot (.ofString "") .empty) := rfl
  rw [hrefused] at hleft
  cases hleft

end TreeImage
