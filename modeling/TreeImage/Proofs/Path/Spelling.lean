import Mathlib.Data.List.Basic
import TreeImage.Path.Normal

set_option autoImplicit false

/-! # How real places are spelled

`RealPath.toPath` writes a list of names as an absolute path. If all of them are proper names, path
arithmetic on the spelling is list arithmetic on the names. The normal form of every path is such a
spelling. -/

namespace TreeImage

/-! ## Proper names -/

/-- A name that stands for an entry of a directory, and for nothing else in a path. -/
structure IsProperName (n : Name) : Prop where
  ne_nil : n ≠ []
  ne_dot : n ≠ dotName
  ne_dotDot : n ≠ dotDotName
  slash_not_mem : slash ∉ n

/-- A place all of whose names are proper. -/
def RealPath.IsProper (r : RealPath) : Prop := ∀ n ∈ r, IsProperName n

namespace RealPath

variable {r r' : RealPath} {n : Name}

theorem isProper_nil : IsProper [] := fun _ h => absurd h List.not_mem_nil

theorem isProper_append : IsProper (r ++ r') ↔ IsProper r ∧ IsProper r' := List.forall_mem_append

theorem isProper_singleton : IsProper [n] ↔ IsProperName n := List.forall_mem_singleton

theorem isProper_reverse : IsProper r.reverse ↔ IsProper r := by
  simp only [IsProper, List.mem_reverse]

theorem IsProper.take (h : IsProper r) (k : Nat) : IsProper (r.take k) :=
  fun _ hn => h _ (List.mem_of_mem_take hn)

end RealPath

theorem Path.stepOf_eq_name {s n : Name} (h : stepOf s = some (.name n)) :
    s = n ∧ n ≠ [] ∧ n ≠ dotName ∧ n ≠ dotDotName := by
  rw [stepOf] at h
  split at h
  · cases h
  · next hnot =>
    split at h
    · cases h
    · next hup =>
      cases h
      exact ⟨rfl, fun e => hnot (.inl e), fun e => hnot (.inr e), hup⟩

theorem IsProperName.stepOf {n : Name} (h : IsProperName n) : Path.stepOf n = some (.name n) := by
  rw [Path.stepOf, if_neg (not_or.2 ⟨h.ne_nil, h.ne_dot⟩), if_neg h.ne_dotDot]

namespace Path

/-- The names among the steps of a path are proper. -/
theorem isProperName_of_mem_components {p : Path} {n : Name} (h : .name n ∈ p.components) :
    IsProperName n := by
  rw [components] at h
  rcases List.mem_append.1 h with hstart | hstep
  · split at hstart
    · simp at hstart
    · split at hstart
      · simp at hstart
      · exact absurd hstart List.not_mem_nil
  · obtain ⟨s, hs, hn⟩ := List.mem_filterMap.1 hstep
    obtain ⟨rfl, hnil, hdot, hup⟩ := stepOf_eq_name hn
    exact ⟨hnil, hdot, hup, not_mem_of_mem_segments hs⟩

/-- A step leaves proper names only, whatever names there were. -/
theorem isProper_climb {names : List Name} {step : Component} (h : RealPath.IsProper names)
    (hstep : ∀ n, step = .name n → IsProperName n) : RealPath.IsProper (climb names step) := by
  cases step with
  | root => exact RealPath.isProper_nil
  | here => exact h
  | up => exact fun n hn => h n (List.mem_of_mem_tail hn)
  | name n => exact List.forall_mem_cons.2 ⟨hstep n rfl, h⟩

theorem isProper_foldl_climb {names : List Name} {steps : List Component} (h : RealPath.IsProper names)
    (hsteps : ∀ step ∈ steps, ∀ n, step = .name n → IsProperName n) :
    RealPath.IsProper (steps.foldl climb names) := by
  induction steps generalizing names with
  | nil => exact h
  | cons step steps ih =>
    obtain ⟨hstep, hrest⟩ := List.forall_mem_cons.1 hsteps
    exact ih (isProper_climb h hstep) hrest

/-- A normal form has proper names only. -/
theorem isProper_normalNames (p : Path) : p.normalNames.IsProper :=
  RealPath.isProper_reverse.2
    (isProper_foldl_climb RealPath.isProper_nil fun _ hstep _ hname =>
      isProperName_of_mem_components (hname ▸ hstep))

end Path

/-! ## The spelling of a place -/

namespace RealPath

open TreeImage.Path

variable {r r' : RealPath} {n : Name}

theorem isAbsolute_toPath (r : RealPath) : r.toPath.isAbsolute = true := by
  rw [isAbsolute, toPath]
  exact beq_self_eq_true _

theorem rawSegments_nil : (toPath []).rawSegments = [[], []] := rfl

theorem rawSegments_toPath (hne : r ≠ []) (h : IsProper r) : r.toPath.rawSegments = [] :: r := by
  have hcut : segments slash (slash :: joinSegments slash r) =
      [] :: segments slash (joinSegments slash r) := segments_append_cons List.not_mem_nil _
  rw [segments_joinSegments hne fun n hn => (h n hn).slash_not_mem] at hcut
  exact hcut

/-- Every proper name is a step. -/
theorem IsProper.filterMap_stepOf (h : IsProper r) : r.filterMap stepOf = r.map .name := by
  induction r with
  | nil => rfl
  | cons n r ih =>
    obtain ⟨hn, hr⟩ := List.forall_mem_cons.1 h
    rw [List.filterMap_cons_some hn.stepOf, ih hr, List.map_cons]

theorem components_toPath (h : IsProper r) : r.toPath.components = .root :: r.map .name := by
  have hsteps : r.toPath.rawSegments.filterMap stepOf = r.map .name := by
    by_cases hne : r = []
    · subst hne
      rfl
    · rw [rawSegments_toPath hne h, List.filterMap_cons_none rfl, h.filterMap_stepOf]
  rw [components, isAbsolute_toPath, if_pos rfl, hsteps, List.singleton_append]

theorem isWithin_toPath (h : IsProper r) (h' : IsProper r') :
    r'.toPath.isWithin r.toPath = true ↔ r <+: r' := by
  have hinj : Function.Injective Component.name := fun _ _ e => Component.name.inj e
  rw [isWithin, components_toPath h, components_toPath h', List.isPrefixOf_iff_prefix,
    List.cons_prefix_cons]
  constructor
  · rintro ⟨-, hmap⟩
    obtain ⟨l, hl, hmap⟩ := List.prefix_map_iff.1 hmap
    rwa [List.map_injective_iff.2 hinj hmap]
  · exact fun hr => ⟨rfl, hr.map _⟩

theorem sameAs_toPath (h : IsProper r) (h' : IsProper r') : r.toPath.sameAs r'.toPath = true ↔ r = r' := by
  rw [sameAs, components_toPath h, components_toPath h', beq_iff_eq, List.cons.injEq,
    List.map_inj_right fun _ _ heq => Component.name.inj heq]
  exact and_iff_right rfl

theorem normalNames_toPath (h : IsProper r) : r.toPath.normalNames = r := by
  have hclimb : ∀ (r names : List Name),
      (r.map Component.name).foldl climb names = r.reverse ++ names := by
    intro r
    induction r with
    | nil => exact fun _ => rfl
    | cons n r ih =>
      intro names
      rw [List.map_cons, List.foldl_cons, ih, climb, List.reverse_cons, List.append_assoc,
        List.singleton_append]
  rw [normalNames, components_toPath h, List.foldl_cons, hclimb, climb, List.append_nil,
    List.reverse_reverse]

theorem fileName?_toPath (h : IsProper (r ++ [n])) : (toPath (r ++ [n])).fileName? = some n := by
  rw [fileName?, components_toPath h, List.map_append, List.map_singleton, ← List.cons_append,
    List.getLast?_concat]

theorem hasNul_toPath (r : RealPath) : r.toPath.hasNul = r.any (·.contains 0) := by
  have hjoin : ∀ r : RealPath, (joinSegments slash r).contains 0 = r.any (·.contains 0) := by
    intro r
    induction r with
    | nil => rfl
    | cons n r ih =>
      by_cases hr : r = []
      · subst hr
        rw [joinSegments, List.any_cons, List.any_nil, Bool.or_false]
      · rw [joinSegments_cons slash n hr, List.any_cons, ← ih, List.contains_append, List.contains_cons]
        rfl
  rw [hasNul, toPath, List.contains_cons, hjoin]
  rfl

/-- Only empty segments and dots are left out at the end of a path. -/
theorem trimSegments_of_proper {first : Bool} {segs : List Name} (h : IsProper segs) :
    trimSegments first segs = segs := by
  cases segs with
  | nil => rfl
  | cons s segs =>
    have hs := h s (List.mem_cons_self ..)
    cases segs with
    | nil => rw [trimSegments, if_neg (not_or.2 ⟨hs.ne_nil, fun e => hs.ne_dot e.1⟩)]
    | cons t segs => rw [trimSegments, if_neg (not_or.2 ⟨hs.ne_nil, hs.ne_dot⟩)]

theorem parent?_toPath (h : IsProper (r ++ [n])) : (toPath (r ++ [n])).parent? = some r.toPath := by
  have hreverse : IsProper r.reverse := fun m hm => h m (List.mem_append_left _ (List.mem_reverse.1 hm))
  have htrim : trimSegments false (r ++ [n]).reverse = n :: r.reverse := by
    rw [trimSegments_of_proper fun m hm => h m (List.mem_reverse.1 hm), List.reverse_append,
      List.reverse_singleton, List.singleton_append]
  rw [parent?, isAbsolute_toPath, if_pos rfl, if_pos rfl,
    rawSegments_toPath (List.append_ne_nil_of_right_ne_nil _ (List.cons_ne_nil _ _)) h, List.tail_cons,
    Bool.not_true, htrim]
  show some (Path.mk ([slash] ++ joinSegments slash (trimSegments false r.reverse).reverse)) = _
  rw [trimSegments_of_proper hreverse, List.reverse_reverse]
  rfl

theorem getLast?_toPath (h : IsProper (r ++ [n])) :
    (toPath (r ++ [n])).bytes.getLast? ≠ some slash := by
  have hn := h n (List.mem_append_right _ (List.mem_singleton_self n))
  have hend : ∃ front, (toPath (r ++ [n])).bytes = front ++ n := by
    by_cases hr : r = []
    · subst hr
      exact ⟨[slash], rfl⟩
    · refine ⟨slash :: (joinSegments slash r ++ [slash]), ?_⟩
      rw [toPath, joinSegments_append slash hr (List.cons_ne_nil _ _), List.cons_append,
        List.append_assoc]
      rfl
  obtain ⟨front, hfront⟩ := hend
  rw [hfront, List.getLast?_append_of_ne_nil _ hn.ne_nil]
  exact fun hlast => hn.slash_not_mem (List.mem_of_getLast? hlast)

/-- Names that are spelled one after the other make a relative path. -/
theorem IsProper.isAbsolute_joinSegments (h : IsProper r) (hne : r ≠ []) :
    (Path.mk (joinSegments slash r)).isAbsolute = false := by
  obtain ⟨n, rest, rfl⟩ := List.exists_cons_of_ne_nil hne
  have hn := h n (List.mem_cons_self ..)
  obtain ⟨b, bs, rfl⟩ := List.exists_cons_of_ne_nil hn.ne_nil
  have hb : b ≠ slash := fun e => hn.slash_not_mem (e ▸ List.mem_cons_self ..)
  have hhead : (joinSegments slash ((b :: bs) :: rest)).head? = some b := by cases rest <;> rfl
  rw [isAbsolute, hhead]
  exact beq_eq_false_iff_ne.2 fun e => hb (Option.some.inj e)

/-- Names that are joined to a spelling go on with it. -/
theorem join_toPath (h : IsProper r) (h' : IsProper r') (hne : r' ≠ []) :
    r.toPath.join ⟨joinSegments slash r'⟩ = toPath (r ++ r') := by
  rw [join, h'.isAbsolute_joinSegments hne, if_neg Bool.false_ne_true]
  rcases List.eq_nil_or_concat r with rfl | ⟨front, n, rfl⟩
  · rw [if_pos (.inr rfl)]
    rfl
  · rw [List.concat_eq_append] at h ⊢
    have hspelled : (toPath (front ++ [n])).bytes ≠ [] := List.cons_ne_nil _ _
    rw [if_neg (not_or.2 ⟨hspelled, getLast?_toPath h⟩), toPath, toPath,
      joinSegments_append slash (List.append_ne_nil_of_right_ne_nil _ (List.cons_ne_nil _ _)) hne]
    rfl

theorem push_toPath (h : IsProper r) (hn : IsProperName n) : r.toPath.push n = toPath (r ++ [n]) :=
  join_toPath h (isProper_singleton.2 hn) (List.cons_ne_nil _ _)

end RealPath

end TreeImage
