import Mathlib.Data.List.Induction
import TreeImage.Proofs.FileSystem.Answers

set_option autoImplicit false

/-! # New directories

`MakesDirectories` says that the only difference between two file systems are directories that are new.
What was there is as it was, and paths lead where they led. -/

namespace TreeImage

namespace FileSystem

variable {S T : RealPath → Prop} {fs fs' fs'' : FileSystem} {q : RealPath} {x : Node}

/-- Whatever stands somewhere stands in a directory. -/
def IsClosed (fs : FileSystem) : Prop :=
  ∀ q n x, fs.get? (q ++ [n]) = some x → fs.isDirectoryAt q = true

/-- A table that a file system can hold: it is closed, and every entry has a name that calls accept. -/
structure IsTree (fs : FileSystem) : Prop where
  closed : fs.IsClosed
  named : ∀ q n x, fs.get? (q ++ [n]) = some x → IsProperName n ∧ IsAcceptable n

/-- Whether every place of the table is the top or a properly named entry of a directory. -/
def checksTree (fs : FileSystem) : Bool :=
  fs.nodes.all fun (q, _) => match q.getLast? with
    | none => true
    | some n => fs.isDirectoryAt q.dropLast && n ≠ [] && n ≠ dotName && n ≠ dotDotName &&
        slash ∉ n && !n.contains 0 && n.length ≤ nameLimit

/-- It is enough to look at the table. -/
theorem isTree_of_checksTree (h : fs.checksTree = true) : fs.IsTree := by
  have hentry : ∀ q n x, fs.get? (q ++ [n]) = some x →
      fs.isDirectoryAt q = true ∧ IsProperName n ∧ IsAcceptable n := by
    intro q n x hget
    obtain ⟨node, hnode, hplace⟩ := List.mem_map.1 (mem_nodes_of_get? (Option.isSome_iff_exists.2 ⟨x, hget⟩))
    have hchecks := List.all_eq_true.1 h node hnode
    simp only [hplace, List.getLast?_append, List.getLast?_singleton, Option.some_or, List.dropLast_concat,
      Bool.and_eq_true, decide_eq_true_eq, Bool.not_eq_true'] at hchecks
    obtain ⟨⟨⟨⟨⟨⟨hdir, hnil⟩, hdot⟩, hdotDot⟩, hslash⟩, hnul⟩, hshort⟩ := hchecks
    exact ⟨hdir, ⟨hnil, hdot, hdotDot, hslash⟩, hnul, hshort⟩
  exact ⟨fun q n x hget => (hentry q n x hget).1, fun q n x hget => (hentry q n x hget).2⟩

/-- In a closed file system all places on the way to a node are directories. -/
theorem IsClosed.isDirectoryAt_of_prefix (h : fs.IsClosed) {r : RealPath} (hr : r ≠ [])
    (hget : fs.get? (q ++ r) = some x) : fs.isDirectoryAt q = true := by
  induction r using List.reverseRecOn generalizing x with
  | nil => exact absurd rfl hr
  | append_singleton r n ih =>
    rw [← List.append_assoc] at hget
    have hdir := h _ n x hget
    by_cases hnil : r = []
    · rwa [hnil, List.append_nil] at hdir
    · obtain ⟨mode, hmode⟩ := isDirectoryAt_iff.1 hdir
      exact ih hnil hmode

/-- Below a place where nothing stands there is nothing. -/
theorem IsClosed.get?_eq_none (h : fs.IsClosed) {r : RealPath} (hq : fs.get? q = none) :
    fs.get? (q ++ r) = none := by
  by_cases hr : r = []
  · rwa [hr, List.append_nil]
  · cases hget : fs.get? (q ++ r) with
    | none => rfl
    | some x =>
      obtain ⟨mode, hmode⟩ := isDirectoryAt_iff.1 (h.isDirectoryAt_of_prefix hr hget)
      cases hq.symm.trans hmode

/-- The only difference are new directories at the places in `S`. -/
structure MakesDirectories (S : RealPath → Prop) (fs fs' : FileSystem) : Prop where
  outside : AgreeOutside S fs fs'
  made : ∀ q, S q → fs.get? q = none ∧ fs'.isDirectoryAt q = true

namespace MakesDirectories

theorem refl (fs : FileSystem) : MakesDirectories (fun _ => False) fs fs := ⟨.refl _ fs, nofun⟩

theorem put (hq : fs.get? q = none) (mode : UInt32) :
    MakesDirectories (· = q) fs (fs.put q (.directory mode)) := by
  refine ⟨agreeOutside_put fs q _, ?_⟩
  rintro _ rfl
  exact ⟨hq, isDirectoryAt_iff.2 ⟨mode, get?_put_self ..⟩⟩

theorem congr (h : MakesDirectories S fs fs') (hST : ∀ q, S q ↔ T q) : MakesDirectories T fs fs' :=
  ⟨h.outside.imp fun q => (hST q).1, fun q hq => h.made q ((hST q).2 hq)⟩

/-- What was there is as it was. -/
theorem get?_eq_some (h : MakesDirectories S fs fs') (hget : fs.get? q = some x) : fs'.get? q = some x := by
  rw [h.outside.get? q, hget]
  intro hq
  cases (h.made q hq).1.symm.trans hget

/-- What is not there now was not there before. -/
theorem get?_eq_none (h : MakesDirectories S fs fs') (hget : fs'.get? q = none) : fs.get? q = none := by
  cases hbefore : fs.get? q with
  | none => rfl
  | some x => cases hget.symm.trans (h.get?_eq_some hbefore)

theorem keeps (h : MakesDirectories S fs fs') : Keeps fs fs' := by
  refine ⟨h.outside.cwd, ?_, fun q target => h.get?_eq_some⟩
  intro q hq
  obtain ⟨mode, hmode⟩ := isDirectoryAt_iff.1 hq
  exact isDirectoryAt_iff.2 ⟨mode, h.get?_eq_some hmode⟩

theorem trans (h : MakesDirectories S fs fs') (h' : MakesDirectories T fs' fs'') :
    MakesDirectories (fun q => S q ∨ T q) fs fs'' := by
  refine ⟨(h.outside.imp fun q => .inl).trans (h'.outside.imp fun q => .inr), ?_⟩
  rintro q (hq | hq)
  · exact ⟨(h.made q hq).1, h'.keeps.directory q (h.made q hq).2⟩
  · exact ⟨h.get?_eq_none (h'.made q hq).1, (h'.made q hq).2⟩

/-- A closed file system is closed with directories that are made in directories. -/
theorem isClosed (h : MakesDirectories S fs fs') (hclosed : fs.IsClosed)
    (hin : ∀ q n, S (q ++ [n]) → fs'.isDirectoryAt q = true) : fs'.IsClosed := by
  intro q n x hget
  by_cases hq : S (q ++ [n])
  · exact hin q n hq
  · rw [h.outside.get? _ hq] at hget
    exact h.keeps.directory q (hclosed q n x hget)

end MakesDirectories

/-- The only difference are new directories, wherever. -/
def Grows (fs fs' : FileSystem) : Prop := ∃ S, MakesDirectories S fs fs'

namespace Grows

theorem refl (fs : FileSystem) : Grows fs fs := ⟨_, .refl fs⟩

theorem trans (h : Grows fs fs') (h' : Grows fs' fs'') : Grows fs fs'' := by
  obtain ⟨S, hS⟩ := h
  obtain ⟨T, hT⟩ := h'
  exact ⟨_, hS.trans hT⟩

theorem keeps (h : Grows fs fs') : Keeps fs fs' := by
  obtain ⟨S, hS⟩ := h
  exact hS.keeps

theorem get?_eq_some (h : Grows fs fs') (hget : fs.get? q = some x) : fs'.get? q = some x := by
  obtain ⟨S, hS⟩ := h
  exact hS.get?_eq_some hget

theorem get?_eq_none (h : Grows fs fs') (hget : fs'.get? q = none) : fs.get? q = none := by
  obtain ⟨S, hS⟩ := h
  exact hS.get?_eq_none hget

theorem makeDirectory {p : Path} (h : fs.makeDirectory p = .ok fs') : Grows fs fs' := by
  obtain ⟨s, mode, -, hnone, rfl⟩ := makeDirectory_eq_ok h
  exact ⟨_, .put hnone mode⟩

end Grows

end FileSystem

end TreeImage
