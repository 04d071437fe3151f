import TreeImage.Proofs.Extract.Destination
import TreeImage.Proofs.Path.Joining
import TreeImage.Proofs.Text.Ascii

set_option autoImplicit false

/-! # Which entry paths are accepted

A path of proper names without NUL and backslash is accepted below every root, unless it starts like a
drive. -/

namespace TreeImage

/-- A proper name has no fault. -/
theorem segmentFault?_eq_none {s : List Char} (h : IsProperName (segmentName s)) : segmentFault? s = none := by
  have hcomponents : (Path.mk (segmentName s)).components = [.name (segmentName s)] :=
    Path.components_joinSegments (RealPath.isProper_singleton.2 h) (List.cons_ne_nil _ _)
  have hempty : s ≠ [] := by
    rintro rfl
    exact h.ne_nil rfl
  have hdot : s ≠ ['.'] := by
    rintro rfl
    exact h.ne_dot (by decide)
  have hdotDot : s ≠ ['.', '.'] := by
    rintro rfl
    exact h.ne_dotDot (by decide)
  rw [segmentFault?, if_neg hempty, if_neg hdot, if_neg hdotDot, if_neg (not_not.2 hcomponents)]

/-- All that can be wrong with a path of proper names that holds no NUL and no backslash is a drive. -/
theorem pathFault?_eq {path : String} (hproper : (entryNames path).IsProper)
    (hnul : ∀ n ∈ entryNames path, n.contains 0 = false) (hbackslash : '\\' ∉ path.toList) :
    pathFault? path = if hasDrivePrefix path.toList then some .drivePrefix else none := by
  have hnamed : [] ∉ pathSegments path := fun h => (hproper _ (List.mem_map_of_mem h)).ne_nil rfl
  have hempty : path.isEmpty = false := by
    rw [← Bool.not_eq_true, String.isEmpty_iff]
    rintro rfl
    exact hnamed (List.mem_singleton_self [])
  have habsolute : path.toList.head? ≠ some '/' := by
    intro hslash
    obtain ⟨rest, hrest⟩ := List.head?_eq_some_iff.1 hslash
    refine hnamed ?_
    rw [pathSegments, hrest, ← List.nil_append ('/' :: rest), segments_append]
    exact List.mem_append_left _ (List.mem_singleton_self [])
  have hzero : path.toList.contains '\x00' = false := by
    rw [← Bool.not_eq_true, List.contains_iff_mem]
    intro hmem
    have hbytes : 0 ∈ joinSegments slash (entryNames path) := by
      have hutf8 : utf8 path = joinSegments slash (entryNames path) := congrArg Path.bytes (ofString_eq path)
      rw [← hutf8, mem_utf8_iff (by decide)]
      exact hmem
    obtain hslash | ⟨n, hn, hin⟩ := mem_of_mem_joinSegments hbytes
    · exact absurd hslash (by decide)
    · have hnone := hnul n hn
      rw [List.contains_iff_mem.2 hin] at hnone
      cases hnone
  have hplain : path.toList.contains '\\' = false := by
    rw [← Bool.not_eq_true, List.contains_iff_mem]
    exact hbackslash
  rw [pathFault?, hempty, if_neg Bool.false_ne_true, if_neg habsolute, hzero, if_neg Bool.false_ne_true, hplain,
    if_neg Bool.false_ne_true]

/-- A path without fault is a path of proper names. -/
theorem isProper_entryNames {path : String} (h : (pathSegments path).findSome? segmentFault? = none) :
    (entryNames path).IsProper := by
  intro n hn
  obtain ⟨s, hs, rfl⟩ := List.mem_map.1 hn
  exact isProperName_of_segmentFault? (List.findSome?_eq_none_iff.1 h s hs)

/-- The destination of a path without fault lies below the root. -/
theorem sanitize_of_no_fault {path : String} (root : Path) (hpath : pathFault? path = none)
    (hsegments : (pathSegments path).findSome? segmentFault? = none) :
    sanitize root path = .ok (root.join (.ofString path)) := by
  have hcomponents : (root.join (.ofString path)).components = root.components ++ (entryNames path).map .name := by
    rw [ofString_eq]
    exact root.components_join (isProper_entryNames hsegments) (entryNames_ne_nil path)
  have hwithin : (root.join (.ofString path)).isWithin root = true := by
    rw [Path.isWithin, hcomponents, List.isPrefixOf_iff_prefix]
    exact List.prefix_append _ _
  have hother : (root.join (.ofString path)).sameAs root = false := by
    rw [Path.sameAs, hcomponents, beq_eq_false_iff_ne]
    intro hsame
    exact entryNames_ne_nil path (List.map_eq_nil_iff.1 (List.append_right_eq_self.1 hsame))
  simp only [sanitize, hpath, hsegments, hwithin, hother]
  rfl

/-- **A path of proper names without NUL and backslash is accepted below every root, unless it starts like a
    drive.** -/
theorem sanitize_eq {path : String} (root : Path) (hproper : (entryNames path).IsProper)
    (hnul : ∀ n ∈ entryNames path, n.contains 0 = false) (hbackslash : '\\' ∉ path.toList) :
    sanitize root path = if hasDrivePrefix path.toList then .error (.unsafePath path .drivePrefix)
      else .ok (root.join (.ofString path)) := by
  have hfault := pathFault?_eq hproper hnul hbackslash
  by_cases hdrive : hasDrivePrefix path.toList = true
  · rw [if_pos hdrive] at hfault ⊢
    rw [sanitize, hfault]
  · rw [if_neg hdrive] at hfault ⊢
    refine sanitize_of_no_fault root hfault ?_
    exact List.findSome?_eq_none_iff.2 fun s hs => segmentFault?_eq_none (hproper _ (List.mem_map_of_mem hs))

/-- What is accepted below one root has no fault. -/
theorem no_fault_of_sanitize {path : String} {root p : Path} (h : sanitize root path = .ok p) :
    pathFault? path = none ∧ (pathSegments path).findSome? segmentFault? = none := by
  rw [sanitize] at h
  split at h
  · cases h
  · next hpath =>
    split at h
    · cases h
    · next hsegments => exact ⟨hpath, hsegments⟩

/-- A path is refused for a fault of its own; no accepted path leads out of the root. -/
theorem sanitize_eq_error {path : String} {root : Path} {err : ExtractError} (h : sanitize root path = .error err) :
    ∃ fault, err = .unsafePath path fault := by
  cases hpath : pathFault? path with
  | some fault =>
    rw [sanitize, hpath] at h
    cases h
    exact ⟨fault, rfl⟩
  | none =>
    cases hsegments : (pathSegments path).findSome? segmentFault? with
    | some fault =>
      simp only [sanitize, hpath, hsegments] at h
      cases h
      exact ⟨fault, rfl⟩
    | none =>
      rw [sanitize_of_no_fault root hpath hsegments] at h
      cases h

end TreeImage
