import TreeImage.Pack.Basic
import TreeImage.Proofs.Image.Records

set_option autoImplicit false

/-! # How packing fails before the checks

A run that ends before the manifest is checked does not end with an error of the checks. -/

namespace TreeImage

variable {fs : FileSystem} {options : PackOptions} {root : Path} {plan : WalkPlan} {d : SourceDirectory}
  {s : WalkState} {name : Name} {listed : List Name} {items : List SourceEntry} {fuel limit offset : Nat}
  {e : PackError}

/-- The error comes from the checks on manifests. -/
def PackError.isFormat : PackError → Bool
  | format _ => true
  | _ => false

/-! ## Rules -/

theorem Rule.ofLine?_eq_error {line : List Char} (h : Rule.ofLine? root line = .error e) : e.isFormat = false := by
  unfold Rule.ofLine? at h
  simp only at h
  split at h
  · cases h
  split at h
  · cases h
  split at h
  · cases h
    rfl
  · cases h

theorem IgnoreRules.ofLines_eq_error {lines : List (List Char)} (h : ofLines root lines = .error e) :
    e.isFormat = false := by
  induction lines with
  | nil => cases h
  | cons line rest ih =>
    rw [ofLines] at h
    split at h
    · next hline =>
      cases h
      exact Rule.ofLine?_eq_error hline
    split at h
    · next hrest =>
      cases h
      exact ih hrest
    · cases h

theorem IgnoreRules.load_eq_error (h : load fs root = .error e) : e.isFormat = false := by
  rw [load] at h
  split at h
  · cases h
  · cases h
    rfl
  split at h
  · cases h
    rfl
  exact ofLines_eq_error (except_map_eq_error.1 (except_map_eq_error.1 h))

theorem loadRules_eq_error (h : loadRules fs root options = .error e) : e.isFormat = false := by
  unfold loadRules at h
  simp only at h
  split at h
  · next hload =>
    cases h
    exact IgnoreRules.load_eq_error hload
  · cases h
  split at h
  · cases h
    rfl
  · cases h

/-! ## The walk -/

namespace WalkPlan

theorem visit_eq_error (h : plan.visit d s name = .error e) : e.isFormat = false := by
  rw [visit] at h
  split at h
  · cases h
  split at h
  · cases h
    rfl
  split at h
  · split at h
    · cases h
      rfl
    · cases h
  split at h
  · next hpath =>
    cases h
    rw [SourceDirectory.entryPath] at hpath
    split at hpath
    · cases hpath
      rfl
    split at hpath
    · cases hpath
      rfl
    split at hpath <;> cases hpath
  split at h
  · cases h
  split at h
  · cases h
    rfl
  rw [keep] at h
  split at h
  · cases h
  · simp only at h
    split at h
    · cases h
      rfl
    · cases h
  · cases h
    rfl

theorem visitAll_eq_error (h : plan.visitAll d listed s = .error e) : e.isFormat = false := by
  induction listed generalizing s with
  | nil => cases h
  | cons name rest ih =>
    rw [visitAll] at h
    split at h
    · next hvisit =>
      cases h
      exact visit_eq_error hvisit
    · exact ih h

theorem enter_eq_error (h : plan.enter fuel s = .error e) : e.isFormat = false := by
  induction fuel generalizing s with
  | zero => cases h
  | succ fuel ih =>
    rw [enter] at h
    split at h
    · cases h
    split at h
    · cases h
      rfl
    simp only at h
    split at h
    · next hvisit =>
      cases h
      exact visitAll_eq_error hvisit
    · exact ih h

theorem walk_eq_error (h : plan.walk root = .error e) : e.isFormat = false :=
  enter_eq_error (except_map_eq_error.1 h)

end WalkPlan

/-! ## Content -/

theorem readEntries_eq_error (h : readEntries fs limit offset items = .error e) : e.isFormat = false := by
  induction items generalizing offset with
  | nil => cases h
  | cons item rest ih =>
    rw [readEntries] at h
    split at h
    · exact ih (except_map_eq_error.1 h)
    split at h
    · cases h
      rfl
    simp only at h
    split at h
    · cases h
      rfl
    · exact ih (except_map_eq_error.1 h)

end TreeImage
