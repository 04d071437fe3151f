import TreeImage.Proofs.Path.Spelling

set_option autoImplicit false

/-! # Steps of joined paths

Names that are joined to a path, whatever its spelling, are steps that follow its own. -/

namespace TreeImage

namespace Path

variable {p q : Path} {r : RealPath} {more : List Component}

/-- A path that starts like `p` has the steps of `p` first. -/
theorem components_eq_append (habsolute : q.isAbsolute = p.isAbsolute)
    (hhead : q.rawSegments.head? = p.rawSegments.head?)
    (hsteps : q.rawSegments.filterMap stepOf = p.rawSegments.filterMap stepOf ++ more) :
    q.components = p.components ++ more := by
  rw [components, components, habsolute, hhead, hsteps, List.append_assoc]

theorem components_joinSegments (h : r.IsProper) (hne : r ≠ []) :
    (Path.mk (joinSegments slash r)).components = r.map .name := by
  have hsegments : (Path.mk (joinSegments slash r)).rawSegments = r :=
    segments_joinSegments hne fun n hn => (h n hn).slash_not_mem
  have hhead : (r.head? == some dotName) = false := by
    obtain ⟨n, rest, rfl⟩ := List.exists_cons_of_ne_nil hne
    rw [List.head?_cons, beq_eq_false_iff_ne]
    exact fun hdot => (h n List.mem_cons_self).ne_dot (Option.some.inj hdot)
  rw [components, h.isAbsolute_joinSegments hne, hsegments, hhead, h.filterMap_stepOf]
  rfl

/-- What is written behind a slash has its steps after those of what stands before the slash. -/
theorem components_append_rest {bytes body : Bytes} (rest : Bytes) (hbytes : bytes ≠ [])
    (hbody : bytes = body ∨ bytes = body ++ [slash]) :
    (Path.mk (body ++ slash :: rest)).components =
      (Path.mk bytes).components ++ (segments slash rest).filterMap stepOf := by
  have hafter : segments slash (body ++ slash :: rest) = segments slash body ++ segments slash rest :=
    segments_append slash body rest
  have hbefore : segments slash bytes = segments slash body ∨ segments slash bytes = segments slash body ++ [[]] := by
    rcases hbody with rfl | rfl
    · exact .inl rfl
    · exact .inr (segments_append slash body [])
  have hfirst := segments_ne_nil slash body
  refine components_eq_append ?_ ?_ ?_
  · rw [isAbsolute, isAbsolute]
    rcases hbody with rfl | rfl
    · rw [List.head?_append_of_ne_nil bytes hbytes]
    · rw [List.head?_append, List.head?_append]
      rfl
  · rw [rawSegments, rawSegments, hafter, List.head?_append_of_ne_nil _ hfirst]
    rcases hbefore with hsame | hsame
    · rw [hsame]
    · rw [hsame, List.head?_append_of_ne_nil _ hfirst]
  · rw [rawSegments, rawSegments, hafter, List.filterMap_append]
    rcases hbefore with hsame | hsame
    · rw [hsame]
    · rw [hsame, List.filterMap_append]
      exact congrArg (· ++ _) (List.append_nil _).symm

/-- A relative path that is joined to another has its steps after those of the other. -/
theorem components_join_relative (hp : p.bytes ≠ []) (hq : q.isAbsolute = false) :
    (p.join q).components = p.components ++ q.rawSegments.filterMap stepOf := by
  rw [join, hq, if_neg Bool.false_ne_true]
  by_cases hslash : p.bytes.getLast? = some slash
  · obtain ⟨body, hbody⟩ := List.getLast?_eq_some_iff.1 hslash
    rw [if_pos (.inr hslash), hbody, List.append_assoc]
    exact components_append_rest q.bytes hp (.inr hbody)
  · rw [if_neg (not_or.2 ⟨hp, hslash⟩)]
    exact components_append_rest q.bytes hp (.inl rfl)

/-- What is joined to a path comes after its steps. -/
theorem components_join (p : Path) (h : r.IsProper) (hne : r ≠ []) :
    (p.join ⟨joinSegments slash r⟩).components = p.components ++ r.map .name := by
  have hrelative := h.isAbsolute_joinSegments hne
  by_cases hbytes : p.bytes = []
  · obtain ⟨bytes⟩ := p
    subst hbytes
    rw [join, hrelative, if_neg Bool.false_ne_true, if_pos (.inl rfl)]
    exact components_joinSegments h hne
  · rw [components_join_relative hbytes hrelative, rawSegments,
      segments_joinSegments hne fun n hn => (h n hn).slash_not_mem, h.filterMap_stepOf]

/-- Names that are pushed one after the other are joined in one. -/
theorem foldl_push (p : Path) (h : r.IsProper) (hne : r ≠ []) :
    r.foldl push p = p.join ⟨joinSegments slash r⟩ := by
  induction r generalizing p with
  | nil => exact absurd rfl hne
  | cons n r ih =>
    obtain ⟨hn, hr⟩ : IsProperName n ∧ RealPath.IsProper r := List.forall_mem_cons.1 h
    by_cases hnone : r = []
    · subst hnone
      rfl
    · have hsingle : RealPath.IsProper [n] := RealPath.isProper_singleton.2 hn
      -- the name that was pushed ends in no slash, so the next one is set off by one
      obtain ⟨lead, hpush, hjoin⟩ : ∃ lead, p.push n = ⟨lead ++ n⟩ ∧
          p.join ⟨joinSegments slash (n :: r)⟩ = ⟨lead ++ joinSegments slash (n :: r)⟩ := by
        rw [push, join, join, h.isAbsolute_joinSegments hne,
          show (Path.mk n).isAbsolute = false from hsingle.isAbsolute_joinSegments (List.cons_ne_nil _ _)]
        by_cases hslash : p.bytes = [] ∨ p.bytes.getLast? = some slash
        · exact ⟨p.bytes, by simp [hslash], by simp [hslash]⟩
        · exact ⟨p.bytes ++ [slash], by simp [hslash], by simp [hslash]⟩
      have hlast : (lead ++ n).getLast? ≠ some slash := by
        rw [List.getLast?_append_of_ne_nil _ hn.ne_nil]
        exact fun hlast => hn.slash_not_mem (List.mem_of_getLast? hlast)
      rw [List.foldl_cons, ih (p.push n) hr hnone, hpush, hjoin, join, hr.isAbsolute_joinSegments hnone,
        if_neg Bool.false_ne_true, if_neg (not_or.2 ⟨List.append_ne_nil_of_right_ne_nil _ hn.ne_nil, hlast⟩),
        joinSegments_cons slash n hnone, List.append_assoc]

end Path

end TreeImage
