import TreeImage.Proofs.FileSystem.Effects

set_option autoImplicit false

/-! # File systems that look alike

A table can list the same nodes in different orders. Where two file systems have the same node at every place, all paths
lead to the same nodes, and a mode that is set in both leaves them alike (`FileSystem.Alike.setMode`). -/

namespace TreeImage.FileSystem

variable {fs fs' : FileSystem} {q : RealPath} {x : Node}

/-- The same node stands at every place, and relative paths start at the same one. -/
structure Alike (fs fs' : FileSystem) : Prop where
  cwd : fs'.cwd = fs.cwd
  executable : fs'.executable = fs.executable
  get? : ∀ q, fs'.get? q = fs.get? q

namespace Alike

theorem refl (fs : FileSystem) : Alike fs fs := ⟨rfl, rfl, fun _ => rfl⟩

theorem put (h : Alike fs fs') (q : RealPath) (x : Node) : Alike (fs.put q x) (fs'.put q x) := by
  refine ⟨h.cwd, h.executable, fun q' => ?_⟩
  rw [get?_put, get?_put, h.get?]

theorem walkNames (h : Alike fs fs') (onLink : RealPath → List Bytes → Except Refusal RealPath) (followLast : Bool)
    (base : RealPath) (names : List Bytes) :
    fs'.walkNames onLink followLast base names = fs.walkNames onLink followLast base names := by
  induction names generalizing base with
  | nil => rfl
  | cons s rest ih => simp only [FileSystem.walkNames, h.get?, ih]

theorem walk (h : Alike fs fs') (followLast : Bool) (links : Nat) :
    fs'.walk followLast links = fs.walk followLast links := by
  induction links with
  | zero =>
    funext base names
    exact h.walkNames _ followLast base names
  | succ links ih =>
    funext base names
    rw [FileSystem.walk, FileSystem.walk, ih]
    exact h.walkNames _ followLast base names

theorem find (h : Alike fs fs') (followLast : Bool) (p : Path) : fs'.find followLast p = fs.find followLast p := by
  simp only [FileSystem.find, FileSystem.resolve, h.cwd, h.walk, h.get?]

/-- A mode is set in both, or in none of them for the same reason. -/
theorem setMode (h : Alike fs fs') (p : Path) (mode : UInt32) :
    (fs'.answer (.setMode p mode)).1 = (fs.answer (.setMode p mode)).1 ∧
      Alike (fs.answer (.setMode p mode)).2 (fs'.answer (.setMode p mode)).2 := by
  simp only [answer, FileSystem.setMode, h.find]
  cases fs.find true p with
  | error e => exact ⟨rfl, h⟩
  | ok found => exact ⟨rfl, h.put ..⟩

end Alike

end TreeImage.FileSystem
