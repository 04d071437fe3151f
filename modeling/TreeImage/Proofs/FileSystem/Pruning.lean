import TreeImage.Proofs.FileSystem.Trees

set_option autoImplicit false

/-! # Taking a tree out of a table

`eraseTree` takes a place out, and everything below it. What is left is a table that a file system can hold, and every
other place is as it was (`get?_eraseTree`). -/

namespace TreeImage

namespace FileSystem

variable {fs : FileSystem} {p q : RealPath} {x : Node}

private theorem lookup_filter_prefix (p q : RealPath) (nodes : List (RealPath × Node)) :
    (nodes.filter fun (r, _) => !p.isPrefixOf r).lookup q = if p <+: q then none else nodes.lookup q := by
  induction nodes with
  | nil => simp
  | cons node nodes ih =>
    obtain ⟨r, x⟩ := node
    rw [List.filter_cons, List.lookup_cons]
    by_cases hr : p <+: r
    · have hdrop : p.isPrefixOf r = true := List.isPrefixOf_iff_prefix.2 hr
      simp only [hdrop, Bool.not_true, Bool.false_eq_true, if_false, ih]
      by_cases hq : q = r
      · simp [hq, hr]
      · rw [beq_eq_false_iff_ne.2 hq]
    · have hkeep : p.isPrefixOf r = false := by
        rw [← Bool.not_eq_true, List.isPrefixOf_iff_prefix]
        exact hr
      simp only [hkeep, Bool.not_false, if_true, List.lookup_cons, ih]
      by_cases hq : q = r
      · simp [hq, hr]
      · rw [beq_eq_false_iff_ne.2 hq]

theorem get?_eraseTree (fs : FileSystem) (p q : RealPath) :
    (fs.eraseTree p).get? q = if p <+: q then none else fs.get? q := lookup_filter_prefix p q fs.nodes

theorem get?_eraseTree_outside (h : ¬p <+: q) : (fs.eraseTree p).get? q = fs.get? q := by
  rw [get?_eraseTree, if_neg h]

theorem isDirectoryAt_eraseTree (h : ¬p <+: q) : (fs.eraseTree p).isDirectoryAt q = fs.isDirectoryAt q := by
  rw [isDirectoryAt, isDirectoryAt, get?_eraseTree_outside h]

theorem not_prefix_of_get?_eraseTree (h : (fs.eraseTree p).get? q = some x) : ¬p <+: q ∧ fs.get? q = some x := by
  rw [get?_eraseTree] at h
  split at h
  · cases h
  · exact ⟨‹_›, h⟩

theorem IsTree.eraseTree (h : fs.IsTree) (p : RealPath) : (fs.eraseTree p).IsTree := by
  refine ⟨fun q n x hget => ?_, fun q n x hget => h.named q n x (not_prefix_of_get?_eraseTree hget).2⟩
  obtain ⟨hnot, hbefore⟩ := not_prefix_of_get?_eraseTree hget
  rw [isDirectoryAt_eraseTree fun hpre => hnot (hpre.trans (List.prefix_append _ _))]
  exact h.closed q n x hbefore

end FileSystem

end TreeImage
