import TreeImage.Extract.Destination
import TreeImage.Proofs.Path.Spelling

set_option autoImplicit false

/-! # Roots and destinations are spelled places

A target root is a normal form, and `sanitize` goes on from it by the names of the entry path. -/

namespace TreeImage

/-- The names that an entry path is made of. -/
def entryNames (path : String) : RealPath := (pathSegments path).map segmentName

/-! ## Roots -/

theorem resolveRoot_eq_ok {cwd executable root : Path} {default : DefaultRoot} {target : Option Path}
    (h : resolveRoot cwd executable default target = .ok root) :
    ∃ names : RealPath, names.IsProper ∧ root = names.toPath := by
  have hnormal : ∃ p : Path, root = p.normal := by
    cases target with
    | none =>
      rw [resolveRoot] at h
      cases default with
      | currentDirectory =>
        cases h
        exact ⟨cwd, rfl⟩
      | executableDirectory =>
        rw [defaultRoot] at h
        split at h
        · cases h
        · next directory _ =>
          cases h
          exact ⟨directory, rfl⟩
    | some target =>
      rw [resolveRoot, absoluteRoot] at h
      split at h
      · cases h
      · split at h
        · cases h
        · cases h
          exact ⟨cwd.join target, rfl⟩
  obtain ⟨p, rfl⟩ := hnormal
  exact ⟨p.normalNames, p.isProper_normalNames, rfl⟩

/-! ## Destinations -/

theorem isProperName_of_segmentFault? {s : List Char} (h : segmentFault? s = none) :
    IsProperName (segmentName s) := by
  rw [segmentFault?] at h
  split at h
  · cases h
  · split at h
    · cases h
    · split at h
      · cases h
      · split at h
        · cases h
        · next hplain =>
          refine Path.isProperName_of_mem_components (p := ⟨segmentName s⟩) ?_
          rw [not_not.1 hplain]
          exact List.mem_singleton_self _

theorem utf8_joinSegments (ss : List (List Char)) :
    utf8 (String.ofList (joinSegments '/' ss)) = joinSegments slash (ss.map segmentName) := by
  induction ss with
  | nil => rfl
  | cons s ss ih =>
    by_cases hss : ss = []
    · subst hss
      rfl
    · have hslash : utf8 (String.ofList ['/']) = [slash] := by decide
      rw [joinSegments_cons '/' s hss, List.map_cons,
        joinSegments_cons slash (segmentName s) (by simpa using hss), ← ih, ← List.singleton_append,
        String.ofList_append, String.ofList_append, utf8_append, utf8_append, hslash,
        List.singleton_append]
      rfl

theorem ofString_eq (path : String) : Path.ofString path = ⟨joinSegments slash (entryNames path)⟩ := by
  have hpath : path = String.ofList (joinSegments '/' (pathSegments path)) := by
    rw [pathSegments, join_segments, String.ofList_toList]
  rw [Path.ofString, entryNames, ← utf8_joinSegments, ← hpath]

theorem entryNames_injective : Function.Injective entryNames := by
  intro a b h
  have hpath := (ofString_eq a).trans ((congrArg (fun r => Path.mk (joinSegments slash r)) h).trans
    (ofString_eq b).symm)
  exact utf8_injective (congrArg Path.bytes hpath)

theorem entryNames_ne_nil (path : String) : entryNames path ≠ [] := by
  rw [entryNames, ne_eq, List.map_eq_nil_iff]
  exact segments_ne_nil _ _

/-- A path without a slash is its own last segment. -/
theorem lastSegment_eq_self {path : String} (h : '/' ∉ path.toList) : lastSegment path = path := by
  have hne : ∀ c ∈ path.toList.reverse, decide (c ≠ '/') = true := fun c hc =>
    decide_eq_true fun heq => h (heq ▸ List.mem_reverse.1 hc)
  have hkeep : (path.toList.reverse ++ []).takeWhile (fun c => decide (c ≠ '/')) =
      path.toList.reverse ++ [].takeWhile fun c => decide (c ≠ '/') := List.takeWhile_append_of_pos hne
  rw [List.append_nil, List.takeWhile_nil, List.append_nil] at hkeep
  rw [lastSegment, hkeep, List.reverse_reverse, String.ofList_toList]

/-- A path without a slash has no parent. -/
theorem parentPath?_eq_none {path : String} (h : '/' ∉ path.toList) : parentPath? path = none := by
  cases hparent : parentPath? path with
  | none => rfl
  | some parent =>
    rw [parentPath?_eq_some hparent] at h
    exact absurd (List.mem_append_right _ List.mem_cons_self) h

/-- The last name of an entry path is its last segment. -/
theorem exists_entryNames_eq_append (path : String) :
    ∃ front, entryNames path = front ++ [utf8 (lastSegment path)] := by
  obtain ⟨front, hfront⟩ := exists_segments_eq_append '/' path.toList
  refine ⟨front.map segmentName, ?_⟩
  rw [entryNames, pathSegments, hfront, List.map_append, List.map_singleton]
  rfl

/-- A path has the names of its parent, and then its own. -/
theorem entryNames_of_parentPath? {path parent : String} (h : parentPath? path = some parent) :
    entryNames path = entryNames parent ++ [utf8 (lastSegment path)] := by
  have hlast := slash_not_mem_lastSegment path
  have hname : segmentName (lastSegment path).toList = utf8 (lastSegment path) := by
    rw [segmentName, String.ofList_toList]
  rw [entryNames, pathSegments, parentPath?_eq_some h, segments_append, segments_of_not_mem hlast,
    List.map_append, List.map_singleton, hname]
  rfl

theorem entryNames_of_parentPath?_eq_none {path : String} (h : parentPath? path = none) :
    entryNames path = [utf8 (lastSegment path)] := by
  have hslash := slash_not_mem_of_parentPath?_eq_none h
  obtain ⟨front, hfront⟩ := exists_entryNames_eq_append path
  have hlength := congrArg List.length hfront
  rw [entryNames, pathSegments, segments_of_not_mem hslash] at hlength
  have hnil : front = [] := List.eq_nil_of_length_eq_zero (by simpa using hlength)
  rw [hfront, hnil, List.nil_append]

/-- The destination of an entry lies below the root, by the names of its path. -/
theorem sanitize_eq_ok {root : RealPath} {path : String} {destination : Path} (hroot : root.IsProper)
    (h : sanitize root.toPath path = .ok destination) :
    (entryNames path).IsProper ∧ destination = RealPath.toPath (root ++ entryNames path) := by
  rw [sanitize] at h
  split at h
  · cases h
  · split at h
    · cases h
    · next hfault =>
      have hproper : (entryNames path).IsProper := by
        intro n hn
        obtain ⟨s, hs, rfl⟩ := List.mem_map.1 hn
        exact isProperName_of_segmentFault? (List.findSome?_eq_none_iff.1 hfault s hs)
      refine ⟨hproper, ?_⟩
      simp only at h
      split at h
      · cases h
        rw [ofString_eq, RealPath.join_toPath hroot hproper (entryNames_ne_nil path)]
      · cases h

/-- Entries with one destination have one path. -/
theorem sanitize_injective {root : RealPath} {a b : String} {destination : Path} (hroot : root.IsProper)
    (ha : sanitize root.toPath a = .ok destination) (hb : sanitize root.toPath b = .ok destination) : a = b := by
  obtain ⟨hproper, rfl⟩ := sanitize_eq_ok hroot ha
  obtain ⟨hproper', heq⟩ := sanitize_eq_ok hroot hb
  have hsteps := congrArg Path.components heq
  rw [RealPath.components_toPath (RealPath.isProper_append.2 ⟨hroot, hproper⟩),
    RealPath.components_toPath (RealPath.isProper_append.2 ⟨hroot, hproper'⟩), List.cons.injEq,
    List.map_inj_right fun _ _ h => Component.name.inj h] at hsteps
  exact entryNames_injective (List.append_cancel_left hsteps.2)

end TreeImage
