import TreeImage.Proofs.Extract.Selection
import TreeImage.Proofs.Path.Parent

set_option autoImplicit false

/-! # Which texts are entry paths, and where they lead

`sanitize` checks the characters of a text, each of its segments, and at last where the joined path leads. The last
two of these checks never fire: a segment without slash that is not empty and no dots is a name, and names lead below
the root, whatever the spelling of the root. So what is accepted can be said without the checks (`IsEntryPath`), and
destinations are as different, and as nested, as the paths are (`sanitize_exact`). -/

namespace TreeImage

variable {root d d' : Path} {path other : String} {s : List Char} {fault : PathFault}

/-- A relative path in named segments, without the characters that separate paths or name drives on other systems. -/
structure IsEntryPath (path : String) : Prop where
  present : path ≠ ""
  noNul : '\x00' ∉ path.toList
  noBackslash : '\\' ∉ path.toList
  noDrive : ∀ c rest, path.toList = c :: ':' :: rest → c.isAlpha = false
  named : ∀ s ∈ pathSegments path, s ≠ [] ∧ s ≠ ['.'] ∧ s ≠ ['.', '.']

/-! ## Segments -/

theorem segmentName_injective : Function.Injective segmentName :=
  fun _ _ h => String.ofList_injective (utf8_injective h)

/-- A segment is a proper name unless it is empty or made of one or two dots. -/
theorem isProperName_segmentName (hslash : '/' ∉ s) (hne : s ≠ []) (hdot : s ≠ ['.']) (hdotDot : s ≠ ['.', '.']) :
    IsProperName (segmentName s) where
  ne_nil h := hne (segmentName_injective h)
  ne_dot h := hdot (segmentName_injective (h.trans (by decide)))
  ne_dotDot h := hdotDot (segmentName_injective (h.trans (by decide)))
  slash_not_mem h := by
    rw [segmentName, mem_utf8_iff (by decide), String.toList_ofList] at h
    exact hslash h

/-- A segment without slash never fails for not being plain. -/
theorem segmentFault?_eq (hslash : '/' ∉ s) : segmentFault? s =
    if s = [] then some .emptySegment else if s = ['.'] then some .dotSegment
    else if s = ['.', '.'] then some .dotDotSegment else none := by
  split
  · next h => rw [segmentFault?, if_pos h]
  · next hne =>
    split
    · next h => rw [segmentFault?, if_neg hne, if_pos h]
    · next hdot =>
      split
      · next h => rw [segmentFault?, if_neg hne, if_neg hdot, if_pos h]
      · next hdotDot => exact segmentFault?_eq_none (isProperName_segmentName hslash hne hdot hdotDot)

theorem slash_not_mem_of_mem_pathSegments (h : s ∈ pathSegments path) : '/' ∉ s := not_mem_of_mem_segments h

theorem findSome?_segmentFault?_eq_none_iff : (pathSegments path).findSome? segmentFault? = none ↔
    ∀ s ∈ pathSegments path, s ≠ [] ∧ s ≠ ['.'] ∧ s ≠ ['.', '.'] := by
  rw [List.findSome?_eq_none_iff]
  refine forall₂_congr fun s hs => ?_
  rw [segmentFault?_eq (slash_not_mem_of_mem_pathSegments hs)]
  split_ifs <;> simp_all

/-! ## Whole paths -/

theorem hasDrivePrefix_eq_false_iff {cs : List Char} :
    hasDrivePrefix cs = false ↔ ∀ c rest, cs = c :: ':' :: rest → c.isAlpha = false := by
  constructor
  · rintro h c rest rfl
    exact h
  · intro h
    match cs with
    | [] | [_] => rfl
    | c :: d :: rest =>
      by_cases hd : d = ':'
      · subst hd
        exact h c rest rfl
      · simp [hasDrivePrefix, hd]

theorem no_fault_iff : pathFault? path = none ∧ (pathSegments path).findSome? segmentFault? = none ↔
    IsEntryPath path := by
  rw [pathFault?_eq_none_iff, hasDrivePrefix_eq_false_iff, findSome?_segmentFault?_eq_none_iff]
  constructor
  · rintro ⟨⟨hne, -, hnul, hbackslash, hdrive⟩, hnamed⟩
    exact ⟨hne, hnul, hbackslash, hdrive, hnamed⟩
  · rintro ⟨hne, hnul, hbackslash, hdrive, hnamed⟩
    refine ⟨⟨hne, ?_, hnul, hbackslash, hdrive⟩, hnamed⟩
    -- what starts with a slash has an empty segment
    intro hslash
    obtain ⟨rest, hrest⟩ := List.head?_eq_some_iff.1 hslash
    refine (hnamed [] ?_).1 rfl
    rw [pathSegments, hrest, ← List.nil_append ('/' :: rest), segments_append_cons List.not_mem_nil]
    exact List.mem_cons_self

theorem exists_sanitize_iff : (∃ d, sanitize root path = .ok d) ↔ IsEntryPath path := by
  rw [← no_fault_iff]
  constructor
  · rintro ⟨d, hd⟩
    exact no_fault_of_sanitize hd
  · rintro ⟨hpath, hsegments⟩
    exact ⟨_, sanitize_of_no_fault root hpath hsegments⟩

/-- A text is refused for what it is itself, and never for a segment that is not plain. -/
theorem exists_fault_of_sanitize {err : ExtractError} (h : sanitize root path = .error err) :
    ∃ fault, err = .unsafePath path fault ∧ fault ≠ .notPlain := by
  cases hpath : pathFault? path with
  | some fault =>
    rw [sanitize, hpath] at h
    cases h
    refine ⟨fault, rfl, ?_⟩
    rintro rfl
    rw [pathFault?] at hpath
    split_ifs at hpath <;> cases hpath
  | none =>
    cases hsegments : (pathSegments path).findSome? segmentFault? with
    | some fault =>
      simp only [sanitize, hpath, hsegments] at h
      cases h
      refine ⟨fault, rfl, ?_⟩
      rintro rfl
      obtain ⟨s, hs, hfault⟩ := List.exists_of_findSome?_eq_some hsegments
      rw [segmentFault?_eq (slash_not_mem_of_mem_pathSegments hs)] at hfault
      split_ifs at hfault <;> cases hfault
    | none =>
      rw [sanitize_of_no_fault root hpath hsegments] at h
      cases h

/-! ## Destinations -/

/-- The steps of a destination are those of the root and then the segments of the path. -/
theorem components_of_sanitize (h : sanitize root path = .ok d) :
    d.components = root.components ++ (entryNames path).map .name := by
  obtain ⟨hpath, hsegments⟩ := no_fault_of_sanitize h
  rw [sanitize_of_no_fault root hpath hsegments] at h
  cases h
  rw [ofString_eq]
  exact root.components_join (isProper_entryNames hsegments) (entryNames_ne_nil path)

/-- A destination is made by pushing the segments of the path one after the other. -/
theorem eq_foldl_push_of_sanitize (h : sanitize root path = .ok d) : d = (entryNames path).foldl Path.push root := by
  obtain ⟨hpath, hsegments⟩ := no_fault_of_sanitize h
  rw [sanitize_of_no_fault root hpath hsegments] at h
  cases h
  rw [ofString_eq, Path.foldl_push root (isProper_entryNames hsegments) (entryNames_ne_nil path)]

/-- Texts whose destinations have the same steps are the same text. -/
theorem eq_of_sameAs_of_sanitize (h : sanitize root path = .ok d) (h' : sanitize root other = .ok d')
    (hsame : d'.sameAs d = true) : other = path := by
  rw [Path.sameAs, beq_iff_eq, components_of_sanitize h, components_of_sanitize h', List.append_cancel_left_eq,
    List.map_inj_right fun _ _ heq => Component.name.inj heq] at hsame
  exact entryNames_injective hsame

/-- The parent of a destination is the root or the destination of the parent. -/
theorem exists_parent?_of_sanitize (h : sanitize root path = .ok d) : ∃ above, d.parent? = some above ∧
    match parentPath? path with
    | none => above.sameAs root = true
    | some parent => ∃ d', sanitize root parent = .ok d' ∧ above.sameAs d' = true := by
  have hsteps := components_of_sanitize h
  cases hparent : parentPath? path with
  | none =>
    rw [entryNames_of_parentPath?_eq_none hparent] at hsteps
    obtain ⟨above, habove, hcomponents⟩ := Path.exists_parent? hsteps
    exact ⟨above, habove, beq_iff_eq.2 hcomponents⟩
  | some parent =>
    obtain ⟨d', hd'⟩ := exists_sanitize_above h (isOnTheWay_of_parentPath? h hparent)
    rw [entryNames_of_parentPath? hparent, List.map_append, ← List.append_assoc, ← components_of_sanitize hd'] at hsteps
    obtain ⟨above, habove, hcomponents⟩ := Path.exists_parent? hsteps
    exact ⟨above, habove, d', hd', beq_iff_eq.2 hcomponents⟩

/-- **Sanitizing is exact.** Below every root, whatever its spelling, the accepted texts are those of the grammar. Their
    destinations have the steps of the root and then the segments; so they lie strictly below the root, no two texts
    share one, and the parent of one is the root or the destination of the parent path. All other texts are refused
    for a fault of their own, but never for a segment that is not plain. -/
theorem sanitize_exact (root : Path) (path : String) :
    ((∃ d, sanitize root path = .ok d) ↔ IsEntryPath path) ∧
    (∀ d, sanitize root path = .ok d →
      d.components = root.components ++ (pathSegments path).map (fun s => .name (segmentName s)) ∧
      d.isWithin root = true ∧ d.sameAs root = false ∧
      (∀ other d', sanitize root other = .ok d' → d'.sameAs d = true → other = path) ∧
      ∃ above, d.parent? = some above ∧ match parentPath? path with
        | none => above.sameAs root = true
        | some parent => ∃ d', sanitize root parent = .ok d' ∧ above.sameAs d' = true) ∧
    ∀ err, sanitize root path = .error err → ∃ fault, err = .unsafePath path fault ∧ fault ≠ .notPlain := by
  refine ⟨exists_sanitize_iff, fun d hd => ?_, fun err => exists_fault_of_sanitize⟩
  have hsteps := components_of_sanitize hd
  refine ⟨?_, ?_, ?_, fun other d' hother => eq_of_sameAs_of_sanitize hd hother, exists_parent?_of_sanitize hd⟩
  · rw [hsteps, entryNames, List.map_map]
    rfl
  · rw [Path.isWithin, hsteps, List.isPrefixOf_iff_prefix]
    exact List.prefix_append _ _
  · rw [Path.sameAs, hsteps, beq_eq_false_iff_ne]
    intro hsame
    exact entryNames_ne_nil path (List.map_eq_nil_iff.1 (List.append_right_eq_self.1 hsame))

end TreeImage
