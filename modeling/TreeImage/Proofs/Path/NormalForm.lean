import Mathlib.Data.List.Induction
import TreeImage.Proofs.Path.Joining

set_option autoImplicit false

/-! # The lexical normal form of a path

`Path.normal` ends where the steps of a path lead to if each name is put on a stack and a double dot takes the last
one off, which at the root there is none (`climbs_iff`). The same is worked out on the path itself, by pushing names and
going to the parent (`foldl_follow_eq_normal`). What comes out is spelled in one way only (`isNormal_normal`), and a
relative path may be taken from it as well as from the path that it was worked out of (`normal_join_normal`). -/

namespace TreeImage

namespace Path

variable {p q : Path} {steps : List Component} {step : Component} {r : RealPath} {n : Name} {s : Bytes}

/-! ## Steps on a stack -/

/-- The names that steps lead to from the root. A double dot takes the last name off; at the root it has no effect. -/
inductive Climbs : List Component → RealPath → Prop
  | root : Climbs [.root] []
  | name {steps : List Component} {r : RealPath} {n : Name} : Climbs steps r → Climbs (steps ++ [.name n]) (r ++ [n])
  | up {steps : List Component} {r : RealPath} {n : Name} : Climbs steps (r ++ [n]) → Climbs (steps ++ [.up]) r
  | upAtRoot {steps : List Component} : Climbs steps [] → Climbs (steps ++ [.up]) []

theorem stepOf_eq_some (h : stepOf s = some step) : step = .up ∨ step = .name s := by
  unfold stepOf at h
  split at h
  · cases h
  · split at h
    · exact .inl (Option.some.inj h).symm
    · exact .inr (Option.some.inj h).symm

/-- A path that starts at the root has no steps but double dots and names from there. -/
theorem components_of_isAbsolute (h : p.isAbsolute = true) :
    p.components = .root :: p.rawSegments.filterMap stepOf := by
  simp [components, h]

theorem Climbs.foldl_climb (h : Climbs steps r) : steps.foldl climb [] = r.reverse := by
  induction h with
  | root => rfl
  | name _ ih => simp [ih, climb]
  | up _ ih => simp [ih, climb]
  | upAtRoot _ ih => simp [ih, climb]

theorem climbs_foldl_climb (h : ∀ step ∈ steps, step = .up ∨ ∃ n, step = .name n) :
    Climbs (.root :: steps) (steps.foldl climb []).reverse := by
  induction steps using List.reverseRecOn with
  | nil => exact .root
  | append_singleton steps step ih =>
    rw [List.forall_mem_append, List.forall_mem_singleton] at h
    have hbefore := ih h.1
    rw [List.foldl_append, ← List.cons_append]
    obtain rfl | ⟨n, rfl⟩ := h.2
    · -- what the double dot does depends on whether a name is left
      cases hnames : steps.foldl climb [] with
      | nil =>
        rw [hnames] at hbefore
        exact hbefore.upAtRoot
      | cons n names =>
        rw [hnames, List.reverse_cons] at hbefore
        exact hbefore.up
    · rw [List.foldl_cons, List.foldl_nil, climb, List.reverse_cons]
      exact hbefore.name

/-- **The normal form has the names that the steps of an absolute path lead to.** -/
theorem climbs_iff (h : p.isAbsolute = true) : Climbs p.components r ↔ p.normalNames = r := by
  constructor
  · intro hclimbs
    rw [normalNames, hclimbs.foldl_climb, List.reverse_reverse]
  · rintro rfl
    have hsteps : ∀ step ∈ p.rawSegments.filterMap stepOf, step = .up ∨ ∃ n, step = .name n := by
      intro step hstep
      obtain ⟨s, -, hs⟩ := List.mem_filterMap.1 hstep
      exact (stepOf_eq_some hs).imp_right fun hname => ⟨s, hname⟩
    rw [normalNames, components_of_isAbsolute h]
    exact climbs_foldl_climb hsteps

/-- Only names that are steps are ever on the stack. -/
theorem Climbs.name_mem (h : Climbs steps r) (hn : n ∈ r) : .name n ∈ steps := by
  induction h with
  | root => exact absurd hn List.not_mem_nil
  | name _ ih =>
    rcases List.mem_append.1 hn with hn | hn
    · exact List.mem_append_left _ (ih hn)
    · rw [List.mem_singleton.1 hn]
      exact List.mem_append_right _ (List.mem_singleton_self _)
  | up _ ih => exact List.mem_append_left _ (ih (List.mem_append_left _ hn))
  | upAtRoot _ _ => exact absurd hn List.not_mem_nil

/-! ## The spelling of a normal form -/

/-- A path in normal form: it starts at the root, no dots stand between its slashes, and no slash follows another
    or stands at the end, except that the root itself is a slash. -/
structure IsNormal (p : Path) : Prop where
  absolute : p.isAbsolute = true
  noDots : ∀ s ∈ p.rawSegments, s ≠ dotName ∧ s ≠ dotDotName
  noDoubledSlash : ¬[slash, slash] <:+: p.bytes
  noFinalSlash : p.bytes.getLast? = some slash → p.bytes = [slash]

theorem not_doubled_toPath (h : r.IsProper) : ¬[slash, slash] <:+: r.toPath.bytes := by
  rintro ⟨front, back, hbytes⟩
  have hcut : r.toPath.rawSegments = segments slash front ++ [] :: segments slash back := by
    have hinner : segments slash (slash :: back) = [] :: segments slash back :=
      segments_append_cons List.not_mem_nil back
    rw [rawSegments, ← hbytes, List.append_assoc, List.cons_append, segments_append, List.singleton_append, hinner]
  obtain ⟨first, more, hfirst⟩ := List.exists_cons_of_ne_nil (segments_ne_nil slash front)
  obtain ⟨last, rest, hlast⟩ := List.exists_cons_of_ne_nil (segments_ne_nil slash back)
  rw [hfirst, hlast, List.cons_append] at hcut
  by_cases hne : r = []
  · subst hne
    have hlength := congrArg List.length hcut
    simp only [RealPath.rawSegments_nil, List.length_cons, List.length_append, List.length_nil] at hlength
    omega
  · -- an empty segment would be one of the names
    rw [RealPath.rawSegments_toPath hne h, List.cons.injEq] at hcut
    exact (h [] (hcut.2 ▸ List.mem_append_right _ List.mem_cons_self)).ne_nil rfl

theorem isNormal_toPath (h : r.IsProper) : r.toPath.IsNormal where
  absolute := r.isAbsolute_toPath
  noDots s hs := by
    have hsegment : s = [] ∨ s ∈ r := by
      by_cases hne : r = []
      · subst hne
        rw [RealPath.rawSegments_nil] at hs
        exact .inl (by simpa using hs)
      · rw [RealPath.rawSegments_toPath hne h] at hs
        exact List.mem_cons.1 hs
    rcases hsegment with rfl | hmem
    · exact ⟨by decide, by decide⟩
    · exact ⟨(h s hmem).ne_dot, (h s hmem).ne_dotDot⟩
  noDoubledSlash := not_doubled_toPath h
  noFinalSlash hlast := by
    rcases List.eq_nil_or_concat r with rfl | ⟨front, n, rfl⟩
    · rfl
    · rw [List.concat_eq_append] at h hlast
      exact absurd hlast (RealPath.getLast?_toPath h)

/-- **A normal form is spelled in the normal way.** -/
theorem isNormal_normal (p : Path) : p.normal.IsNormal := isNormal_toPath p.isProper_normalNames

theorem components_normal (p : Path) : p.normal.components = .root :: p.normalNames.map .name :=
  RealPath.components_toPath p.isProper_normalNames

theorem normalNames_normal (p : Path) : p.normal.normalNames = p.normalNames :=
  RealPath.normalNames_toPath p.isProper_normalNames

/-- Working out the dots of a normal form changes nothing. -/
theorem normal_normal (p : Path) : p.normal.normal = p.normal := congrArg RealPath.toPath p.normalNames_normal

/-- A normal form holds no bytes but slashes and those of the names of its path. -/
theorem hasNul_normal (habsolute : p.isAbsolute = true) (h : p.hasNul = false) : p.normal.hasNul = false := by
  rw [normal, RealPath.hasNul_toPath, List.any_eq_false]
  intro n hn
  have hstep := ((climbs_iff habsolute).2 rfl).name_mem hn
  rw [components_of_isAbsolute habsolute, List.mem_cons, List.mem_filterMap] at hstep
  obtain hroot | ⟨s, hs, hname⟩ := hstep
  · cases hroot
  · rw [(stepOf_eq_name hname).1] at hs
    rw [List.contains_iff_mem]
    intro hnul
    rw [hasNul, List.contains_iff_mem.2 (mem_of_mem_segments hs hnul)] at h
    cases h

/-! ## Pushing and going to the parent -/

/-- One step on a path: a name is pushed, and a double dot leads to the parent, if there is one. -/
def follow (p : Path) : Component → Path
  | .root => p.join ⟨[slash]⟩
  | .here => p
  | .up => p.parent?.getD p
  | .name n => p.push n

theorem follow_toPath {names : List Name} (h : RealPath.IsProper names)
    (hstep : ∀ n, step = .name n → IsProperName n) :
    (RealPath.toPath names.reverse).follow step = RealPath.toPath (climb names step).reverse := by
  have hproper := RealPath.isProper_reverse.2 h
  cases step with
  | root => rfl
  | here => rfl
  | up =>
    cases names with
    | nil => rfl
    | cons n names =>
      rw [List.reverse_cons] at hproper ⊢
      rw [follow, RealPath.parent?_toPath hproper, climb, List.tail_cons, Option.getD_some]
  | name n => rw [follow, RealPath.push_toPath hproper (hstep n rfl), climb, List.reverse_cons]

theorem foldl_follow_toPath {names : List Name} (h : RealPath.IsProper names)
    (hsteps : ∀ step ∈ steps, ∀ n, step = .name n → IsProperName n) :
    steps.foldl follow (RealPath.toPath names.reverse) = RealPath.toPath (steps.foldl climb names).reverse := by
  induction steps generalizing names with
  | nil => rfl
  | cons step steps ih =>
    obtain ⟨hstep, hrest⟩ := List.forall_mem_cons.1 hsteps
    rw [List.foldl_cons, List.foldl_cons, follow_toPath h hstep]
    exact ih (isProper_climb h hstep) hrest

/-- **A path is normalised by following its steps from the empty path.** -/
theorem foldl_follow_eq_normal (h : p.isAbsolute = true) : p.components.foldl follow ⟨[]⟩ = p.normal := by
  have hsteps : ∀ step ∈ p.rawSegments.filterMap stepOf, ∀ n, step = .name n → IsProperName n := by
    rintro step hstep n rfl
    exact isProperName_of_mem_components (components_of_isAbsolute h ▸ List.mem_cons_of_mem _ hstep)
  rw [normal, normalNames, components_of_isAbsolute h, List.foldl_cons, List.foldl_cons]
  exact foldl_follow_toPath RealPath.isProper_nil hsteps

/-! ## Going on from a normal form -/

theorem isAbsolute_join (h : p.isAbsolute = true) (q : Path) : (p.join q).isAbsolute = true := by
  have hne : p.bytes ≠ [] := by
    intro hnil
    rw [isAbsolute, hnil] at h
    cases h
  unfold join
  split
  · assumption
  · split <;> rwa [isAbsolute, List.head?_append_of_ne_nil _ hne]

theorem hasNul_join (hp : p.hasNul = false) (hq : q.hasNul = false) : (p.join q).hasNul = false := by
  unfold join
  split
  · exact hq
  · split <;> simp_all [hasNul, slash]

/-- A path, a slash and another path, written one behind the other. -/
def followedBy (p q : Path) : Path := ⟨p.bytes ++ slash :: q.bytes⟩

theorem isEmpty_followedBy (p q : Path) : (p.followedBy q).isEmpty = false := by
  simp [isEmpty, followedBy]

theorem hasNul_followedBy (p q : Path) : (p.followedBy q).hasNul = (p.hasNul || q.hasNul) := by
  simp [hasNul, followedBy, slash]

theorem components_followedBy (hp : p.bytes ≠ []) (q : Path) :
    (p.followedBy q).components = p.components ++ q.rawSegments.filterMap stepOf :=
  components_append_rest q.bytes hp (.inl rfl)

/-- What a path is joined to does not depend on what is written behind that path. -/
theorem join_followedBy (p : Path) {t : Path} (ht : t.bytes ≠ []) (q : Path) :
    p.join (t.followedBy q) = (p.join t).followedBy q := by
  have habsolute : (t.followedBy q).isAbsolute = t.isAbsolute := by
    rw [isAbsolute, isAbsolute, followedBy, List.head?_append_of_ne_nil _ ht]
  rw [join, join, habsolute]
  split
  · rfl
  · split <;> simp [followedBy]

/-- **A relative path that follows another leads on from its normal form.** -/
theorem normal_followedBy (hp : p.bytes ≠ []) (hq : q.isAbsolute = false) :
    (p.followedBy q).normal = (p.normal.join q).normal := by
  have hnames : (p.followedBy q).normalNames = (p.normal.join q).normalNames := by
    have hsame : p.normal.components.foldl climb [] = p.components.foldl climb [] :=
      List.reverse_injective p.normalNames_normal
    have hnormal : p.normal.bytes ≠ [] := List.cons_ne_nil _ _
    rw [normalNames, normalNames, components_followedBy hp, components_join_relative hnormal hq,
      List.foldl_append, List.foldl_append, hsame]
  exact congrArg RealPath.toPath hnames

end Path

end TreeImage
