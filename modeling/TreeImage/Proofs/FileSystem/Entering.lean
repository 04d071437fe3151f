import TreeImage.FileSystem.Calls
import TreeImage.Proofs.FileSystem.Places

set_option autoImplicit false

/-! # Entries by any spelling

`Enters p d n` says that a path, in whatever spelling, ends in the name `n`, and that what stands before the
name leads to the directory at `d`. Calls through the path then reach the place `d ++ [n]`. A path to which a
name is pushed enters its directory (`LeadsTo.enters_push`), and so does every path with a plain spot
(`enters_of_spot`). -/

namespace TreeImage

open TreeImage.Path

namespace FileSystem

variable {fs fs' : FileSystem} {p p' : Path} {d d' q : RealPath} {n n' : Name} {x : Node} {mode : UInt32}
  {content : Bytes}

/-- The path ends in the name `n`, and what stands before it leads to the directory at `d`. -/
structure Enters (fs : FileSystem) (p : Path) (d : RealPath) (n : Name) : Prop where
  hasNul : p.hasNul = false
  isEmpty : p.isEmpty = false
  step : IsStep n
  short : n.length ≤ nameLimit
  directory : fs.isDirectoryAt d = true
  walks : ∃ before, p.rawSegments = before ++ [n] ∧
    Walks fs true linkLimit (walkStart p.bytes fs.cwd) before d

theorem admissible_eq_ok_iff : admissible p = .ok () ↔ p.hasNul = false ∧ p.isEmpty = false := by
  unfold admissible
  cases p.hasNul <;> cases p.isEmpty <;> simp

theorem Keeps.enters (hkeeps : Keeps fs fs') (h : fs.Enters p d n) : fs'.Enters p d n := by
  obtain ⟨before, hsegments, hwalks⟩ := h.walks
  refine ⟨h.hasNul, h.isEmpty, h.step, h.short, hkeeps.directory d h.directory, before, hsegments, ?_⟩
  rw [hkeeps.cwd]
  exact hwalks.keeps h.directory hkeeps

/-! ## What calls reach -/

namespace Enters

variable (h : fs.Enters p d n)

include h

theorem resolve (followLast : Bool) :
    ∃ links, fs.resolve followLast p = fs.walk followLast links d [n] := by
  obtain ⟨before, hsegments, hwalks⟩ := h.walks
  obtain ⟨links, hlinks⟩ := hwalks.append followLast
  refine ⟨links, ?_⟩
  rw [FileSystem.resolve, admissible_eq_ok_iff.2 ⟨h.hasNul, h.isEmpty⟩, hsegments]
  exact hlinks [n] (List.cons_ne_nil _ _)

theorem find (hget : fs.get? (d ++ [n]) = some x) : fs.find false p = .ok (d ++ [n], x) := by
  obtain ⟨links, hresolve⟩ := h.resolve false
  rw [walk_entry h.directory h.step, if_neg (Nat.not_lt.2 h.short), hget] at hresolve
  exact find_eq_ok_iff.2 ⟨hresolve, hget⟩

theorem find_follow (hget : fs.get? (d ++ [n]) = some x) (hkind : x.kind ≠ .symlink) :
    fs.find true p = .ok (d ++ [n], x) := by
  obtain ⟨links, hresolve⟩ := h.resolve true
  rw [walk_cons_down h.directory h.step h.short hget hkind, walk_nil] at hresolve
  exact find_eq_ok_iff.2 ⟨hresolve, hget⟩

theorem spot : fs.spot p = .ok ⟨d, n, false⟩ := by
  obtain ⟨before, hsegments, hwalks⟩ := h.walks
  obtain ⟨m, hget⟩ := isDirectoryAt_iff.1 h.directory
  have hreversed : p.rawSegments.reverse.dropWhile (· = []) = n :: before.reverse := by
    rw [hsegments, List.reverse_append, List.reverse_singleton, List.singleton_append,
      List.dropWhile_cons_of_neg]
    exact fun hnil => h.step.ne_nil (of_decide_eq_true hnil)
  -- behind a slash at the end there would be an empty segment
  have hlast : p.bytes.getLast? ≠ some slash := by
    intro hslash
    obtain ⟨body, hbody⟩ := List.getLast?_eq_some_iff.1 hslash
    rw [rawSegments, hbody, segments_append] at hsegments
    exact h.step.ne_nil (List.append_inj_right' hsegments rfl |> List.singleton_inj.1).symm
  rewrite [FileSystem.spot, admissible_eq_ok_iff.2 ⟨h.hasNul, h.isEmpty⟩]
  simp only [hreversed, List.tail_cons, List.reverse_reverse, walk_eq_ok_iff.2 hwalks, hget, List.headD_cons,
    if_neg (Nat.not_lt.2 h.short), decide_eq_false hlast]

theorem read (hget : fs.get? (d ++ [n]) = some (.file mode content)) : fs.read p = .ok content := by
  rw [FileSystem.read, h.find_follow hget (by simp [Node.kind])]
  rfl

theorem setMode (hget : fs.get? (d ++ [n]) = some x) (hkind : x.kind ≠ .symlink) (mode : UInt32) :
    fs.setMode p mode = .ok (fs.put (d ++ [n]) (x.withMode (mode &&& modeMask))) := by
  rw [FileSystem.setMode, h.find_follow hget hkind]

theorem isPlain : (Spot.mk d n false).isPlain = true := by
  simp [Spot.isPlain, h.step.ne_nil, h.step.ne_dot, h.step.ne_dotDot]

theorem remove_file (hget : fs.get? (d ++ [n]) = some (.file mode content)) :
    fs.remove p = .ok (fs.erase (d ++ [n])) := by
  rw [FileSystem.remove, h.spot]
  simp [h.isPlain, Spot.place, hget]

/-- A regular file is moved over whatever is no directory, or stays where it is. -/
theorem rename_file (h' : fs.Enters p' d' n') (hget : fs.get? (d ++ [n]) = some (.file mode content))
    (hdir : fs.isDirectoryAt (d' ++ [n']) = false) :
    fs.rename p p' = .ok (if d ++ [n] = d' ++ [n'] then fs
      else (fs.erase (d ++ [n])).put (d' ++ [n']) (.file mode content)) := by
  rw [rename, h.spot, h'.spot]
  simp only [h.isPlain, h'.isPlain, Spot.place, hget, moveNode, hdir, Bool.not_true, Bool.or_self,
    Bool.false_eq_true, if_false]
  exact (apply_ite Except.ok _ _ _).symm

end Enters

/-! ## Paths that enter a directory -/

/-- A name behind a path has a slash before it, be it one that ends the path. -/
theorem push_eq (hne : p.isEmpty = false) (hn : IsProperName n) :
    ∃ body, p.push n = ⟨body ++ slash :: n⟩ ∧ (p.bytes = body ∨ p.bytes = body ++ [slash]) := by
  have hbytes : p.bytes ≠ [] := by simpa [Path.isEmpty] using hne
  have hrelative : (Path.mk n).isAbsolute = false :=
    RealPath.IsProper.isAbsolute_joinSegments (RealPath.isProper_singleton.2 hn) (List.cons_ne_nil _ _)
  rw [push, join, hrelative, if_neg Bool.false_ne_true]
  by_cases hslash : p.bytes.getLast? = some slash
  · obtain ⟨body, hbody⟩ := List.getLast?_eq_some_iff.1 hslash
    rw [if_pos (.inr hslash), hbody]
    exact ⟨body, by simp, .inr rfl⟩
  · rw [if_neg (not_or.2 ⟨hbytes, hslash⟩)]
    exact ⟨p.bytes, rfl, .inl rfl⟩

theorem LeadsTo.enters_push (h : fs.LeadsTo p d) (hn : IsProperName n) (hn' : IsAcceptable n) :
    fs.Enters (p.push n) d n := by
  obtain ⟨hnul, hne, hwalks⟩ := resolve_eq_ok_iff.1 h.1
  obtain ⟨body, hpush, hbody⟩ := push_eq hne hn
  have hstart : walkStart (body ++ slash :: n) fs.cwd = walkStart p.bytes fs.cwd := by
    unfold walkStart
    rcases hbody with hbody | hbody
    · have hbytes : p.bytes ≠ [] := by simpa [Path.isEmpty] using hne
      rw [hbody] at hbytes ⊢
      rw [List.head?_append_of_ne_nil _ hbytes]
    · rw [hbody, List.head?_append, List.head?_append]
      rfl
  rw [hpush]
  refine ⟨?_, by simp [Path.isEmpty], hn.isStep, hn'.2, h.2, segments slash body, ?_, ?_⟩
  · have := hn'.1
    rcases hbody with hbody | hbody <;> simp_all [Path.hasNul, slash]
  · rw [rawSegments, segments_append, segments_of_not_mem hn.slash_not_mem]
  · rw [hstart]
    unfold rawSegments at hwalks
    rcases hbody with hbody | hbody
    · rwa [hbody] at hwalks ⊢
    · -- a slash at the end of the path makes a step that stays where it is
      rw [hbody, segments_append] at hwalks
      obtain ⟨links, q, hq, hlast⟩ := hwalks.split
      rw [hbody]
      cases hlast with
      | stay hbase hs next =>
        cases next
        exact hq
      | last hbase hs => exact absurd rfl hs.ne_nil
      | follow hbase hs => exact absurd rfl hs.ne_nil
      | down hbase hs => exact absurd rfl hs.ne_nil

end FileSystem

end TreeImage
