import TreeImage.Proofs.Manifest.Checked

set_option autoImplicit false

/-! # Sizes

No byte of the blob belongs to two files, so the files of a manifest are together no longer than the blob. Sorted by
where they start, their contents follow one another, and the sum of the lengths stays below the end of the last
(`Entry.start_add_totalBytes_le`). Hence sixty-four bits are enough for every sum of sizes that is taken
(`Entry.wordTotal`). -/

namespace TreeImage

variable {blobLength low high : Nat} {sum : UInt64} {e : Entry} {es es' : List Entry} {m : Manifest}

namespace Entry

/-! ## Sums of sizes -/

theorem totalBytes_eq_sum (es : List Entry) : totalBytes es = (es.map (·.size.toNat)).sum := by
  induction es with
  | nil => rfl
  | cons e es ih => rw [totalBytes_cons, List.map_cons, List.sum_cons, ih]

theorem totalBytes_eq_of_perm (h : es.Perm es') : totalBytes es = totalBytes es' := by
  rw [totalBytes_eq_sum, totalBytes_eq_sum]
  exact (h.map _).sum_eq

theorem totalBytes_le_of_sublist (h : es.Sublist es') : totalBytes es ≤ totalBytes es' := by
  rw [totalBytes_eq_sum, totalBytes_eq_sum]
  exact (h.map _).sum_le_sum fun _ _ => Nat.zero_le _

/-- Empty files add nothing. -/
theorem totalBytes_filter_full (es : List Entry) : totalBytes (es.filter (·.size != 0)) = totalBytes es := by
  induction es with
  | nil => rfl
  | cons e es ih =>
    by_cases hempty : e.size = 0
    · rw [List.filter_cons_of_neg (by simp [hempty]), ih, totalBytes_cons, hempty, UInt64.toNat_zero, Nat.zero_add]
    · rw [List.filter_cons_of_pos (by simp [hempty]), totalBytes_cons, totalBytes_cons, ih]

/-- Contents that follow one another between two places are together no longer than the way from one to the other. -/
theorem start_add_totalBytes_le (hpairs : es.Pairwise fun a b => a.stop ≤ b.start) (hlow : ∀ e ∈ es, low ≤ e.start)
    (hhigh : ∀ e ∈ es, e.stop ≤ high) (hle : low ≤ high) : low + totalBytes es ≤ high := by
  induction es generalizing low with
  | nil => exact hle
  | cons e es ih =>
    obtain ⟨hfirst, hrest⟩ := List.pairwise_cons.1 hpairs
    obtain ⟨hstop, hhigh⟩ := List.forall_mem_cons.1 hhigh
    have hstart : low ≤ e.start := hlow e List.mem_cons_self
    calc low + totalBytes (e :: es) ≤ e.start + (e.size.toNat + totalBytes es) := Nat.add_le_add_right hstart _
      _ = e.stop + totalBytes es := (Nat.add_assoc _ _ _).symm
      _ ≤ high := ih hrest hfirst hhigh hstop

/-! ## Sums of sixty-four bits -/

theorem toNat_add_of_lt {a b : UInt64} (h : a.toNat + b.toNat < UInt64.size) : (a + b).toNat = a.toNat + b.toNat :=
  (UInt64.toNat_add a b).trans (Nat.mod_eq_of_lt h)

/-- Add the size of an entry to a sum of sixty-four bits; nothing if they do not hold it. -/
def addSize? (sum : UInt64) (e : Entry) : Option UInt64 :=
  if sum.toNat + e.size.toNat < UInt64.size then some (sum + e.size) else none

/-- The sizes of some entries, added one after the other in sixty-four bits; nothing if one of the additions goes
    beyond them. -/
def wordTotal (es : List Entry) : Option UInt64 := es.foldlM addSize? 0

theorem foldlM_addSize?_eq_some (h : sum.toNat + totalBytes es < UInt64.size) :
    es.foldlM addSize? sum = some (.ofNat (sum.toNat + totalBytes es)) := by
  induction es generalizing sum with
  | nil => simp
  | cons e es ih =>
    rw [totalBytes_cons, ← Nat.add_assoc] at h ⊢
    have hfits : sum.toNat + e.size.toNat < UInt64.size := Nat.lt_of_le_of_lt (Nat.le_add_right _ _) h
    have hsum : (sum + e.size).toNat = sum.toNat + e.size.toNat := toNat_add_of_lt hfits
    rw [← hsum] at h ⊢
    rw [List.foldlM_cons, addSize?, if_pos hfits]
    exact ih h

/-- **A sum that sixty-four bits hold is found in them:** no addition on the way goes beyond them. -/
theorem wordTotal_eq_some (h : totalBytes es < UInt64.size) : wordTotal es = some (.ofNat (totalBytes es)) := by
  have hzero : (0 : UInt64).toNat + totalBytes es = totalBytes es := Nat.zero_add _
  rw [wordTotal, foldlM_addSize?_eq_some (hzero.symm ▸ h), hzero]

end Entry

/-! ## Manifests -/

namespace Manifest

theorem WellFormed.stop_le (h : m.WellFormed blobLength) (he : e ∈ m.files) : e.stop ≤ blobLength := h.filesInside e he

theorem mem_files_of_mem_byOffset (h : e ∈ m.byOffset) : e ∈ m.files :=
  (List.mem_filter.1 ((List.mergeSort_perm _ _).mem_iff.1 h)).1

/-- **All files together are no longer than the blob.** -/
theorem totalSize_le (h : m.validate blobLength = .ok ()) : m.totalSize ≤ blobLength := by
  have hformed := (validate_eq_ok_iff_wellFormed _ _).1 h
  have hpairs := checkDisjoint_eq_ok_iff.1 (validate_eq_ok_iff.1 h).2.1
  calc m.totalSize = Entry.totalBytes (m.files.filter (·.size != 0)) := (Entry.totalBytes_filter_full _).symm
    _ = Entry.totalBytes m.byOffset := (Entry.totalBytes_eq_of_perm (List.mergeSort_perm _ _)).symm
    _ = 0 + Entry.totalBytes m.byOffset := (Nat.zero_add _).symm
    _ ≤ blobLength := Entry.start_add_totalBytes_le hpairs (fun _ _ => Nat.zero_le _)
        (fun _ he => hformed.stop_le (mem_files_of_mem_byOffset he)) (Nat.zero_le _)

theorem totalBytes_files_le (h : m.validate blobLength = .ok ()) (hes : es.Sublist m.entries) :
    Entry.totalBytes (es.filter (·.isFile)) ≤ blobLength :=
  (Entry.totalBytes_le_of_sublist (hes.filter _)).trans (totalSize_le h)

end Manifest

end TreeImage
