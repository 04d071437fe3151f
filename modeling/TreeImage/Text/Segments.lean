set_option autoImplicit false

/-! # Segments between separators

`segments sep xs` cuts a list at every separator; joining the pieces with the separator gives the list
back (`join_segments`), and no piece holds a separator (`not_mem_of_mem_segments`). -/

namespace TreeImage

variable {α : Type} [DecidableEq α]

/-- Put `x` in front of the first segment, or start a new one if `x` separates. -/
def consSegment (sep x : α) : List (List α) → List (List α)
  | [] => if x = sep then [[], []] else [[x]]
  | s :: ss => if x = sep then [] :: s :: ss else (x :: s) :: ss

/-- The stretches of `xs` between separators; there is one more of them than separators. -/
def segments (sep : α) (xs : List α) : List (List α) := xs.foldr (consSegment sep) [[]]

/-- The stretches written one after the other with a separator between them. -/
def joinSegments (sep : α) : List (List α) → List α
  | [] => []
  | [s] => s
  | s :: ss => s ++ sep :: joinSegments sep ss

@[simp] theorem segments_nil (sep : α) : segments sep [] = [[]] := rfl

@[simp] theorem segments_cons (sep x : α) (xs : List α) :
    segments sep (x :: xs) = consSegment sep x (segments sep xs) := rfl

theorem consSegment_ne_nil (sep x : α) (ss : List (List α)) : consSegment sep x ss ≠ [] := by
  cases ss <;> simp only [consSegment] <;> split <;> simp

theorem segments_ne_nil (sep : α) (xs : List α) : segments sep xs ≠ [] := by
  cases xs with
  | nil => simp
  | cons x xs => exact consSegment_ne_nil _ _ _

theorem join_segments (sep : α) (xs : List α) : joinSegments sep (segments sep xs) = xs := by
  induction xs with
  | nil => rfl
  | cons x xs ih =>
    rw [segments_cons]
    cases hs : segments sep xs with
    | nil => exact absurd hs (segments_ne_nil _ _)
    | cons s ss =>
      rw [hs] at ih
      simp only [consSegment]
      split
      · next hx => simp [joinSegments, ih, hx]
      · cases ss with
        | nil => simpa [joinSegments] using ih
        | cons t ts => simpa [joinSegments] using ih

theorem segments_of_not_mem {sep : α} {xs : List α} (h : sep ∉ xs) : segments sep xs = [xs] := by
  induction xs with
  | nil => rfl
  | cons x xs ih =>
    obtain ⟨hx, hxs⟩ := not_or.1 (mt List.mem_cons.2 h)
    rw [segments_cons, ih hxs, consSegment, if_neg fun e => hx e.symm]

theorem segments_append_cons {sep : α} {xs : List α} (h : sep ∉ xs) (ys : List α) :
    segments sep (xs ++ sep :: ys) = xs :: segments sep ys := by
  induction xs with
  | nil =>
    rw [List.nil_append, segments_cons]
    cases hs : segments sep ys with
    | nil => exact absurd hs (segments_ne_nil _ _)
    | cons s ss => rw [consSegment, if_pos rfl]
  | cons x xs ih =>
    obtain ⟨hx, hxs⟩ := not_or.1 (mt List.mem_cons.2 h)
    rw [List.cons_append, segments_cons, ih hxs, consSegment, if_neg fun e => hx e.symm]

/-- What stands before a separator is cut as if it were alone, and so is what stands after it. -/
theorem segments_append (sep : α) (xs ys : List α) :
    segments sep (xs ++ sep :: ys) = segments sep xs ++ segments sep ys := by
  induction xs with
  | nil => exact segments_append_cons List.not_mem_nil ys
  | cons x xs ih =>
    rw [List.cons_append, segments_cons, ih, segments_cons]
    cases hs : segments sep xs with
    | nil => exact absurd hs (segments_ne_nil _ _)
    | cons s ss =>
      rw [List.cons_append, consSegment, consSegment]
      split <;> rfl

/-- Pieces that hold no separator are found again. -/
theorem segments_joinSegments {sep : α} {ss : List (List α)} (hne : ss ≠ [])
    (h : ∀ s ∈ ss, sep ∉ s) : segments sep (joinSegments sep ss) = ss := by
  induction ss with
  | nil => exact absurd rfl hne
  | cons s ss ih =>
    obtain ⟨hs, hss⟩ := List.forall_mem_cons.1 h
    cases ss with
    | nil => exact segments_of_not_mem hs
    | cons t ts =>
      rw [joinSegments, segments_append_cons hs, ih (List.cons_ne_nil _ _) hss]
      exact List.cons_ne_nil _ _

omit [DecidableEq α] in
theorem joinSegments_cons {ss : List (List α)} (sep : α) (s : List α) (h : ss ≠ []) :
    joinSegments sep (s :: ss) = s ++ sep :: joinSegments sep ss := by
  rw [joinSegments]
  exact h

omit [DecidableEq α] in
theorem joinSegments_append {ss ts : List (List α)} (sep : α) (hs : ss ≠ []) (ht : ts ≠ []) :
    joinSegments sep (ss ++ ts) = joinSegments sep ss ++ sep :: joinSegments sep ts := by
  induction ss with
  | nil => exact absurd rfl hs
  | cons s ss ih =>
    by_cases hss : ss = []
    · subst hss
      exact joinSegments_cons sep s ht
    · rw [List.cons_append, joinSegments_cons sep s (List.append_ne_nil_of_left_ne_nil hss ts), ih hss,
        joinSegments_cons sep s hss, List.append_assoc, List.cons_append]

omit [DecidableEq α] in
theorem mem_joinSegments {sep x : α} {s : List α} {ss : List (List α)} (h : s ∈ ss) (hx : x ∈ s) :
    x ∈ joinSegments sep ss := by
  induction ss with
  | nil => exact absurd h List.not_mem_nil
  | cons t ss ih =>
    by_cases hss : ss = []
    · subst hss
      rwa [joinSegments, ← List.mem_singleton.1 h]
    · rw [joinSegments_cons sep t hss]
      rcases List.mem_cons.1 h with rfl | h
      · exact List.mem_append_left _ hx
      · exact List.mem_append_right _ (List.mem_cons_of_mem _ (ih h))

omit [DecidableEq α] in
theorem mem_of_mem_joinSegments {sep x : α} {ss : List (List α)} (h : x ∈ joinSegments sep ss) :
    x = sep ∨ ∃ s ∈ ss, x ∈ s := by
  induction ss with
  | nil => exact absurd h List.not_mem_nil
  | cons s ss ih =>
    by_cases hss : ss = []
    · subst hss
      exact .inr ⟨s, List.mem_singleton_self s, h⟩
    · rw [joinSegments_cons sep s hss, List.mem_append, List.mem_cons] at h
      rcases h with h | h | h
      · exact .inr ⟨s, List.mem_cons_self, h⟩
      · exact .inl h
      · exact (ih h).imp_right fun ⟨t, ht, hx⟩ => ⟨t, List.mem_cons_of_mem s ht, hx⟩

/-- What stands in a segment stands in the whole. -/
theorem mem_of_mem_segments {sep x : α} {xs s : List α} (h : s ∈ segments sep xs) (hx : x ∈ s) :
    x ∈ xs := by
  rw [← join_segments sep xs]
  exact mem_joinSegments h hx

theorem not_mem_of_mem_segments {sep : α} {xs s : List α} (h : s ∈ segments sep xs) : sep ∉ s := by
  induction xs generalizing s with
  | nil => simp_all
  | cons x xs ih =>
    rw [segments_cons] at h
    cases hs : segments sep xs with
    | nil => exact absurd hs (segments_ne_nil _ _)
    | cons t ts =>
      rw [hs] at h ih
      simp only [consSegment] at h
      split at h
      · rcases List.mem_cons.1 h with rfl | h
        · simp
        · exact ih h
      · next hx =>
        rcases List.mem_cons.1 h with rfl | h
        · have := ih (List.mem_cons_self ..)
          simp only [List.mem_cons, not_or]
          exact ⟨fun e => hx e.symm, this⟩
        · exact ih (List.mem_cons_of_mem _ h)

/-- The last piece is what stands after the last separator. -/
theorem exists_segments_eq_append (sep : α) (xs : List α) :
    ∃ front, segments sep xs = front ++ [(xs.reverse.takeWhile (· ≠ sep)).reverse] := by
  obtain ⟨front, l, hsplit⟩ := List.eq_nil_or_concat (segments sep xs) |>.resolve_left
    (segments_ne_nil sep xs)
  rw [List.concat_eq_append] at hsplit
  have hl : sep ∉ l :=
    not_mem_of_mem_segments (hsplit ▸ List.mem_append_right _ (List.mem_singleton_self l))
  have hkept : ∀ x ∈ l.reverse, decide (x ≠ sep) = true := by
    intro x hx
    exact decide_eq_true fun e => hl (e ▸ List.mem_reverse.1 hx)
  have hone : joinSegments sep [l] = l := rfl
  have hxs := join_segments sep xs
  refine ⟨front, ?_⟩
  rw [hsplit] at hxs ⊢
  suffices hlast : xs.reverse.takeWhile (· ≠ sep) = l.reverse by rw [hlast, List.reverse_reverse]
  by_cases hfront : front = []
  · subst hfront
    rw [List.nil_append, hone] at hxs
    rw [← hxs, ← List.append_nil l.reverse, List.takeWhile_append_of_pos hkept, List.takeWhile_nil]
  · rw [joinSegments_append sep hfront (List.cons_ne_nil _ _), hone] at hxs
    rw [← hxs, List.reverse_append, List.reverse_cons, List.append_assoc,
      List.takeWhile_append_of_pos hkept, List.singleton_append, List.takeWhile_cons_of_neg,
      List.append_nil]
    simp

end TreeImage
