import TreeImage.Extract.Select
import TreeImage.Proofs.Manifest.WellFormed

set_option autoImplicit false

/-! # What leads to a path

The ancestors of a path are the places on the way to it (`Manifest.mem_ancestorPaths_iff`). `keepAbove` walks up
through them and stops at the first one that is kept already. It misses nothing because the kept paths are closed
under parents before every entry (`ParentClosed`); while the walk goes up, the place where it stands is the only one
whose parent may still be missing. -/

namespace TreeImage

variable {front path parent last : String} {kept above : List String} {e : Entry} {es : List Entry} {m : Manifest}

namespace Manifest

theorem IsOnTheWay.trans {back : String} (h : IsOnTheWay front path) (h' : IsOnTheWay path back) :
    IsOnTheWay front back := by
  obtain ⟨hne, middle, hmiddle⟩ := h
  obtain ⟨-, rest, hrest⟩ := h'
  exact ⟨hne, middle ++ '/' :: rest, by rw [hrest, hmiddle, List.append_assoc, List.cons_append]⟩

/-- No place is on the way to itself. -/
theorem not_isOnTheWay_self (path : String) : ¬IsOnTheWay path path := by
  rintro ⟨-, back, hback⟩
  have hlength := congrArg List.length hback
  rw [List.length_append, List.length_cons] at hlength
  omega

theorem length_lt_of_parentPath? (h : parentPath? path = some parent) : parent.length < path.length := by
  have hlength := congrArg List.length (parentPath?_eq_some h)
  rw [List.length_append, List.length_cons, String.length_toList, String.length_toList] at hlength
  omega

end Manifest

/-! ## One ancestor after another -/

/-- A path has at most as many ancestors as characters, so that many steps find them all. -/
theorem ancestorsUpTo_eq_ancestorPaths {fuel : Nat} (hfuel : path.length ≤ fuel) :
    ancestorsUpTo fuel path = ancestorPaths path := by
  have hsame : ∀ fuel fuel' path, path.length ≤ fuel → path.length ≤ fuel' →
      ancestorsUpTo fuel path = ancestorsUpTo fuel' path := by
    have hempty : parentPath? "" = none := by decide
    intro fuel
    induction fuel with
    | zero =>
      intro fuel' path hfuel _
      obtain rfl : path = "" := String.length_eq_zero_iff.1 (Nat.le_zero.1 hfuel)
      cases fuel' with
      | zero => rfl
      | succ fuel' => simp only [ancestorsUpTo, hempty]
    | succ fuel ih =>
      intro fuel' path hfuel hfuel'
      cases hparent : parentPath? path with
      | none => cases fuel' <;> simp only [ancestorsUpTo, hparent]
      | some parent =>
        have hshorter := Manifest.length_lt_of_parentPath? hparent
        obtain ⟨fuel', rfl⟩ := Nat.exists_eq_succ_of_ne_zero (show fuel' ≠ 0 by omega)
        simp only [ancestorsUpTo, hparent]
        rw [ih fuel' parent (by omega) (by omega)]
  exact hsame _ _ _ hfuel (Nat.le_refl _)

theorem ancestorPaths_eq_nil (h : parentPath? path = none) : ancestorPaths path = [] := by
  rw [← ancestorsUpTo_eq_ancestorPaths (Nat.le_succ _), ancestorsUpTo, h]

/-- The ancestors of a path are its parent and the ancestors of that. -/
theorem ancestorPaths_eq_cons (h : parentPath? path = some parent) :
    ancestorPaths path = parent :: ancestorPaths parent := by
  rw [← ancestorsUpTo_eq_ancestorPaths (Nat.le_succ _), ancestorsUpTo, h]
  exact congrArg _ (ancestorsUpTo_eq_ancestorPaths (Manifest.length_lt_of_parentPath? h).le)

/-- What holds of a path whenever it holds of its parent holds of every path. -/
theorem parentPath?_induction {motive : String → Prop} (path : String)
    (step : ∀ path, (∀ parent, parentPath? path = some parent → motive parent) → motive path) : motive path := by
  induction hlength : path.length using Nat.strong_induction_on generalizing path with
  | _ length ih =>
    refine step path fun parent hparent => ih parent.length ?_ parent rfl
    exact hlength ▸ Manifest.length_lt_of_parentPath? hparent

/-- The ancestors of a path are the places on the way to it. -/
theorem Manifest.mem_ancestorPaths_iff (hne : front ≠ "") :
    front ∈ ancestorPaths path ↔ IsOnTheWay front path := by
  induction path using parentPath?_induction with
  | step path ih =>
    rw [isOnTheWay_iff]
    cases hparent : parentPath? path with
    | none => simp [ancestorPaths_eq_nil hparent]
    | some parent =>
      rw [ancestorPaths_eq_cons hparent, List.mem_cons, ih parent hparent]
      constructor
      · rintro (rfl | habove)
        · exact ⟨front, rfl, .inl ⟨rfl, hne⟩⟩
        · exact ⟨parent, rfl, .inr habove⟩
      · rintro ⟨_, ⟨⟩, ⟨rfl, -⟩ | habove⟩
        · exact .inl rfl
        · exact .inr habove

/-! ## The walk up -/

/-- The parent of each of these paths is one of them, except that the parent of `last` may be missing. -/
def ParentClosedBut (last : String) (kept : List String) : Prop :=
  ∀ path ∈ kept, path ≠ last → ∀ parent, parentPath? path = some parent → parent ∈ kept

/-- The parent of each of these paths is one of them. -/
def ParentClosed (kept : List String) : Prop :=
  ∀ path ∈ kept, ∀ parent, parentPath? path = some parent → parent ∈ kept

theorem ParentClosedBut.parentClosed (h : ParentClosedBut last kept)
    (hlast : ∀ parent, parentPath? last = some parent → parent ∈ kept) : ParentClosed kept := by
  intro path hpath parent hparent
  by_cases heq : path = last
  · exact hlast parent (heq ▸ hparent)
  · exact h path hpath heq parent hparent

theorem ParentClosed.but_cons (h : ParentClosed kept) : ParentClosedBut path (path :: kept) := by
  intro other hother hne parent hparent
  have hkept : other ∈ kept := (List.mem_cons.1 hother).resolve_left hne
  exact List.mem_cons_of_mem _ (h other hkept parent hparent)

/-- The walk goes one place up. -/
theorem ParentClosedBut.cons_parent (h : ParentClosedBut last kept) (hparent : parentPath? last = some parent) :
    ParentClosedBut parent (parent :: kept) := by
  intro other hother hne above habove
  have hkept : other ∈ kept := (List.mem_cons.1 hother).resolve_left hne
  by_cases heq : other = last
  · obtain rfl : parent = above := Option.some.inj (hparent.symm.trans (heq ▸ habove))
    exact List.mem_cons_self
  · exact List.mem_cons_of_mem _ (h other hkept heq above habove)

/-- Among closed paths are all ancestors of each. -/
theorem ParentClosed.ancestorPaths_subset (h : ParentClosed kept) (hpath : path ∈ kept) :
    ancestorPaths path ⊆ kept := by
  induction path using parentPath?_induction with
  | step path ih =>
    cases hparent : parentPath? path with
    | none =>
      rw [ancestorPaths_eq_nil hparent]
      exact List.nil_subset _
    | some parent =>
      have hmem := h path hpath parent hparent
      rw [ancestorPaths_eq_cons hparent]
      exact List.cons_subset.2 ⟨hmem, ih parent hparent hmem⟩

/-- **The walk up misses nothing:** where it stops early, the ancestors that it does not look at are kept. -/
theorem keepAbove_ancestorPaths (h : ParentClosedBut last kept) :
    ParentClosed (keepAbove kept (ancestorPaths last)) ∧
      ∀ front, front ∈ keepAbove kept (ancestorPaths last) ↔ front ∈ kept ∨ front ∈ ancestorPaths last := by
  induction last using parentPath?_induction generalizing kept with
  | step last ih =>
    cases hparent : parentPath? last with
    | none =>
      rw [ancestorPaths_eq_nil hparent, keepAbove]
      refine ⟨h.parentClosed fun parent hsome => ?_, by simp⟩
      rw [hparent] at hsome
      cases hsome
    | some parent =>
      rw [ancestorPaths_eq_cons hparent, keepAbove]
      by_cases hkept : parent ∈ kept
      · have hclosed : ParentClosed kept := h.parentClosed fun _ hsome => Option.some.inj (hparent ▸ hsome) ▸ hkept
        have hall : parent :: ancestorPaths parent ⊆ kept :=
          List.cons_subset.2 ⟨hkept, hclosed.ancestorPaths_subset hkept⟩
        rw [if_pos (List.contains_iff_mem.2 hkept)]
        exact ⟨hclosed, fun front => ⟨.inl, fun hfront => hfront.elim id fun hmem => hall hmem⟩⟩
      · obtain ⟨hclosed, hmem⟩ := ih parent hparent (h.cons_parent hparent)
        rw [if_neg (mt List.contains_iff_mem.1 hkept)]
        refine ⟨hclosed, fun front => ?_⟩
        rw [hmem, List.mem_cons, List.mem_cons]
        tauto

/-! ## All that is kept -/

theorem ParentClosed.keep (h : ParentClosed kept) : ParentClosed (keepEntry kept e) ∧
    ∀ front, front ∈ keepEntry kept e ↔ front ∈ kept ∨ front = e.path ∨ front ∈ ancestorPaths e.path := by
  have hbut : ParentClosedBut e.path (e.path :: kept) := h.but_cons
  obtain ⟨hclosed, hmem⟩ := keepAbove_ancestorPaths hbut
  refine ⟨hclosed, fun front => ?_⟩
  rw [keepEntry, hmem, List.mem_cons]
  tauto

/-- After some entries, kept are what was kept before, their paths and what leads to them. -/
theorem ParentClosed.keepAll (h : ParentClosed kept) : ParentClosed (es.foldl keepEntry kept) ∧
    ∀ front, front ∈ es.foldl keepEntry kept ↔
      front ∈ kept ∨ ∃ e ∈ es, front = e.path ∨ front ∈ ancestorPaths e.path := by
  induction es generalizing kept with
  | nil => exact ⟨h, by simp⟩
  | cons e es ih =>
    obtain ⟨hclosed, hmem⟩ := h.keep (e := e)
    obtain ⟨hclosed', hmem'⟩ := ih hclosed
    refine ⟨hclosed', fun front => ?_⟩
    rw [List.foldl_cons, hmem', hmem, List.exists_mem_cons_iff, or_assoc]

/-- A place is kept for an accepted entry if it is its path or on the way to it. -/
theorem Manifest.mem_keptPaths_iff {accepts : Entry → Bool} (hne : front ≠ "") : front ∈ m.keptPaths accepts ↔
    ∃ e ∈ m.entries, accepts e = true ∧ (front = e.path ∨ IsOnTheWay front e.path) := by
  have hclosed : ParentClosed [] := fun _ hpath => absurd hpath List.not_mem_nil
  simp only [keptPaths, hclosed.keepAll.2, List.mem_filter, List.not_mem_nil, false_or,
    mem_ancestorPaths_iff hne, and_assoc]

end TreeImage
