import TreeImage.Proofs.Path.Spelling

set_option autoImplicit false

/-! # The parent of a path

`Path.parent?` works on the spelling of a path. Read as steps, it takes the last step off and leaves all others as
they are, whatever doubled slashes and dots stand in between (`exists_parent?`). -/

namespace TreeImage

namespace Path

variable {first : Bool} {s : Bytes} {segs before : List Bytes} {p : Path} {front : List Component} {last : Component}

/-! ## The steps of some segments -/

/-- The steps of some segments; `first` says whether they start a relative path, where a single dot is a step. -/
def bodySteps (first : Bool) (segs : List Bytes) : List Component :=
  (if first && segs.head? == some dotName then [.here] else []) ++ segs.filterMap stepOf

/-- A segment that follows others is a step whatever they are. -/
theorem bodySteps_reverse_cons (h : segs ≠ []) :
    bodySteps first (s :: segs).reverse = bodySteps first segs.reverse ++ (stepOf s).toList := by
  have hlast : [s].filterMap stepOf = (stepOf s).toList := by
    cases hstep : stepOf s with
    | none => exact List.filterMap_cons_none hstep
    | some step => exact List.filterMap_cons_some hstep
  rw [bodySteps, bodySteps, List.reverse_cons, List.head?_append_of_ne_nil _ (mt List.reverse_eq_nil_iff.1 h),
    List.filterMap_append, hlast, List.append_assoc]

theorem exists_stepOf (h : ¬(s = [] ∨ s = dotName)) : ∃ step, stepOf s = some step := by
  rw [stepOf, if_neg h]
  split <;> exact ⟨_, rfl⟩

/-! ## Trimmed segments -/

theorem trimSegments_suffix (first : Bool) (segs : List Bytes) : trimSegments first segs <:+ segs := by
  induction segs with
  | nil => exact List.suffix_refl _
  | cons s segs ih =>
    cases segs with
    | nil =>
      rw [trimSegments]
      split
      · exact List.nil_suffix
      · exact List.suffix_refl _
    | cons t segs =>
      rw [trimSegments]
      split
      · exact ih.trans (List.suffix_cons s _)
      · exact List.suffix_refl _

/-- What is left out at the end is no step. -/
theorem bodySteps_trimSegments (first : Bool) (segs : List Bytes) :
    bodySteps first (trimSegments first segs).reverse = bodySteps first segs.reverse := by
  induction segs with
  | nil => rfl
  | cons s segs ih =>
    cases segs with
    | nil =>
      rw [trimSegments]
      split
      · next hleft =>
        rcases hleft with rfl | ⟨rfl, hfirst⟩
        · cases first <;> rfl
        · rw [Bool.not_eq_true'] at hfirst
          subst hfirst
          rfl
      · rfl
    | cons t segs =>
      rw [trimSegments]
      split
      · next hleft =>
        have hstep : stepOf s = none := by rw [stepOf, if_pos hleft]
        rw [ih, bodySteps_reverse_cons (List.cons_ne_nil _ _), hstep, Option.toList_none, List.append_nil]
      · rfl

/-- The segment that is kept at the end is one step. -/
theorem exists_step_of_trimSegments (h : trimSegments first segs = s :: before) :
    ∃ step, bodySteps first (s :: before).reverse = bodySteps first before.reverse ++ [step] := by
  induction segs with
  | nil => cases h
  | cons t segs ih =>
    cases segs with
    | nil =>
      rw [trimSegments] at h
      split at h
      · cases h
      · next hkept =>
        cases h
        obtain ⟨hne, hdot⟩ := not_or.1 hkept
        by_cases heq : s = dotName
        · -- a single dot is kept at the start of a relative path only
          have hfirst : first = true := by simpa [heq] using hdot
          subst heq hfirst
          exact ⟨.here, rfl⟩
        · have hhead : (first && [s].head? == some dotName) = false := by simp [heq]
          obtain ⟨step, hstep⟩ := exists_stepOf (not_or.2 ⟨hne, heq⟩)
          refine ⟨step, ?_⟩
          rw [List.reverse_singleton, bodySteps, hhead, List.filterMap_cons_some hstep]
          cases first <;> rfl
    | cons u segs =>
      rw [trimSegments] at h
      split at h
      · exact ih h
      · next hkept =>
        cases h
        obtain ⟨step, hstep⟩ := exists_stepOf hkept
        exact ⟨step, by rw [bodySteps_reverse_cons (List.cons_ne_nil _ _), hstep, Option.toList_some]⟩

/-! ## The steps of a path and of its parent -/

/-- The segments of a path that are steps, and what stands before them. -/
def body (p : Path) : List Bytes := if p.isAbsolute then p.rawSegments.tail else p.rawSegments

theorem isAbsolute_iff : p.isAbsolute = true ↔ ∃ rest, p.bytes = slash :: rest := by
  rw [isAbsolute, beq_iff_eq, List.head?_eq_some_iff]

theorem components_eq_bodySteps (p : Path) :
    p.components = (if p.isAbsolute then [.root] else []) ++ bodySteps (!p.isAbsolute) p.body := by
  cases habsolute : p.isAbsolute with
  | false => simp [components, bodySteps, body, habsolute]
  | true =>
    obtain ⟨rest, hrest⟩ := isAbsolute_iff.1 habsolute
    have hsegments : p.rawSegments = [] :: segments slash rest := by
      rw [rawSegments, hrest]
      exact segments_append_cons List.not_mem_nil rest
    simp [components, bodySteps, body, habsolute, hsegments, stepOf]

theorem slash_not_mem_of_mem_body {s : Bytes} (h : s ∈ p.body) : slash ∉ s := by
  rw [body] at h
  split at h
  · exact not_mem_of_mem_segments (List.mem_of_mem_tail h)
  · exact not_mem_of_mem_segments h

/-- The first segments of a relative path make a relative path. -/
theorem isAbsolute_joinSegments_of_prefix (h : segs <+: p.rawSegments) (habsolute : p.isAbsolute = false) :
    (Path.mk (joinSegments slash segs)).isAbsolute = false := by
  have hfront : joinSegments slash segs <+: p.bytes := by
    rw [← join_segments slash p.bytes]
    obtain ⟨more, hmore⟩ := h
    rw [rawSegments] at hmore
    rw [← hmore]
    by_cases hsegs : segs = []
    · subst hsegs
      exact List.nil_prefix
    · by_cases hnone : more = []
      · simp [hnone]
      · rw [joinSegments_append slash hsegs hnone]
        exact List.prefix_append _ _
  rw [← Bool.not_eq_true] at habsolute ⊢
  refine mt (fun hslash => ?_) habsolute
  obtain ⟨rest, hrest⟩ := isAbsolute_iff.1 hslash
  obtain ⟨more, hmore⟩ := hfront
  exact isAbsolute_iff.2 ⟨rest ++ more, by rw [← hmore, show joinSegments slash segs = slash :: rest from hrest]; rfl⟩

/-- Segments written as a path that is absolute if this one is. -/
def withBody (p : Path) (segs : List Bytes) : Path :=
  ⟨(if p.isAbsolute then [slash] else []) ++ joinSegments slash segs⟩

theorem isAbsolute_withBody (h : segs <+: p.body) : (p.withBody segs).isAbsolute = p.isAbsolute := by
  cases habsolute : p.isAbsolute with
  | true =>
    rw [withBody, habsolute, if_pos rfl]
    exact isAbsolute_iff.2 ⟨_, rfl⟩
  | false =>
    rw [body, habsolute, if_neg Bool.false_ne_true] at h
    rw [withBody, habsolute, if_neg Bool.false_ne_true]
    exact isAbsolute_joinSegments_of_prefix h habsolute

theorem body_withBody (h : segs <+: p.body) : (p.withBody segs).body = segments slash (joinSegments slash segs) := by
  rw [body, isAbsolute_withBody h, rawSegments, withBody]
  cases p.isAbsolute with
  | true => exact congrArg List.tail (segments_append_cons List.not_mem_nil _)
  | false => rfl

/-- Segments of a path from the first one on have their own steps when they are written as a path. -/
theorem components_withBody (h : segs <+: p.body) :
    (p.withBody segs).components = (if p.isAbsolute then [.root] else []) ++ bodySteps (!p.isAbsolute) segs := by
  have hnone : ∀ first, bodySteps first [[]] = bodySteps first [] := by decide
  rw [components_eq_bodySteps, isAbsolute_withBody h, body_withBody h]
  by_cases hne : segs = []
  · subst hne
    exact congrArg _ (hnone _)
  · rw [segments_joinSegments hne fun s hs => slash_not_mem_of_mem_body (h.subset hs)]

/-- **The parent of a path has all its steps but the last, if that is a name.** -/
theorem exists_parent? {n : Name} (h : p.components = front ++ [.name n]) :
    ∃ q, p.parent? = some q ∧ q.components = front := by
  have hkept := bodySteps_trimSegments (!p.isAbsolute) p.body.reverse
  rw [List.reverse_reverse] at hkept
  rw [components_eq_bodySteps, ← hkept] at h
  cases htrim : trimSegments (!p.isAbsolute) p.body.reverse with
  | nil =>
    -- the root and the empty path do not end in a name
    rw [htrim] at h
    have hlast := congrArg List.getLast? h
    rw [List.getLast?_concat] at hlast
    cases habsolute : p.isAbsolute <;> simp [habsolute, bodySteps] at hlast
  | cons s before =>
    obtain ⟨step, hstep⟩ := exists_step_of_trimSegments htrim
    rw [htrim, hstep, ← bodySteps_trimSegments, ← List.append_assoc] at h
    have hfront : (trimSegments (!p.isAbsolute) before).reverse <+: p.body := by
      have hsuffix := (trimSegments_suffix (!p.isAbsolute) before).trans ((List.suffix_cons s before).trans
        (htrim ▸ trimSegments_suffix (!p.isAbsolute) p.body.reverse))
      rw [← List.reverse_reverse p.body]
      exact List.reverse_prefix.2 hsuffix
    have hparent : p.parent? = some (p.withBody (trimSegments (!p.isAbsolute) before).reverse) := by
      rw [body] at htrim
      simp only [parent?, htrim, withBody]
    exact ⟨_, hparent, (components_withBody hfront).trans (List.append_inj_left' h rfl)⟩

end Path

end TreeImage
