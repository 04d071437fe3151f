import TreeImage.Proofs.Manifest.Checked

set_option autoImplicit false

/-! # Canonical manifests

Between entries with different paths canonical order leaves no choice, so entries in any order have one canonical
manifest, in which every entry is strictly before those that follow. Where a path comes twice, no order of the entries
makes a manifest that the checks accept. So it makes no difference to an image in which order its entries were given
(`encode_canonical_perm`). -/

namespace TreeImage

variable {blobLength : Nat} {before rest es es' : List Entry} {a b e : Entry} {m : Manifest} {path : String}

/-! ## Sorting by an order -/

section Sorting

variable {α : Type} {order : α → α → Ordering} [Std.TransCmp order]

/-- Sorting puts nothing behind what is greater. -/
theorem pairwise_mergeSort_order (xs : List α) :
    (xs.mergeSort fun a b => order a b != .gt).Pairwise fun a b => order a b ≠ .gt := by
  have hle : ∀ o : Ordering, (o != .gt) = o.isLE := by
    intro o
    cases o <;> rfl
  refine (List.pairwise_mergeSort (fun a b c hab hbc => ?_) (fun a b => ?_) xs).imp bne_iff_ne.1
  · rw [hle] at *
    exact Std.TransCmp.isLE_trans hab hbc
  · have hswap : order b a = (order a b).swap := Std.OrientedCmp.eq_swap
    rw [hswap]
    cases order a b <;> rfl

/-- Where entries that compare equal have one key and every key comes once, each is strictly before those that follow. -/
theorem pairwise_lt_mergeSort_order (order : α → α → Ordering) [Std.TransCmp order] {κ : Type} (key : α → κ)
    (hkey : ∀ {a b}, order a b = .eq → key a = key b) {xs : List α} (hdistinct : (xs.map key).Nodup) :
    (xs.mergeSort fun a b => order a b != .gt).Pairwise fun a b => order a b = .lt := by
  have hkeys := List.pairwise_map.1 (((List.mergeSort_perm xs fun a b => order a b != .gt).map key).nodup_iff.2 hdistinct)
  refine ((pairwise_mergeSort_order xs).and hkeys).imp fun {a b} ⟨hle, hne⟩ => ?_
  cases hcompare : order a b with
  | lt => rfl
  | eq => exact absurd (hkey hcompare) hne
  | gt => exact absurd hcompare hle

/-- Where only equals compare equal, sorting forgets the order of the list. -/
theorem mergeSort_order_eq_of_perm {xs ys : List α} (hperm : xs.Perm ys)
    (heq : ∀ a ∈ xs, ∀ b ∈ xs, order a b = .eq → a = b) :
    (xs.mergeSort fun a b => order a b != .gt) = ys.mergeSort fun a b => order a b != .gt := by
  refine List.Perm.eq_of_pairwise (fun a b ha hb hab hba => ?_) (pairwise_mergeSort_order xs) (pairwise_mergeSort_order ys) ?_
  · refine heq a (List.mem_mergeSort.1 ha) b (hperm.mem_iff.2 (List.mem_mergeSort.1 hb)) ?_
    have hswap : order b a = (order a b).swap := Std.OrientedCmp.eq_swap
    rw [hswap] at hba
    cases hcompare : order a b with
    | eq => rfl
    | lt => exact absurd (congrArg Ordering.swap hcompare) hba
    | gt => exact absurd hcompare hab
  · exact (List.mergeSort_perm _ _).trans (hperm.trans (List.mergeSort_perm _ _).symm)

end Sorting

/-! ## Canonical order -/

instance EntryKind.transOrd : Std.TransOrd EntryKind where
  eq_swap := by rintro (_ | _) (_ | _) <;> rfl
  isLE_trans := by rintro (_ | _) (_ | _) (_ | _) <;> decide

instance Entry.transCmp_order : Std.TransCmp Entry.order :=
  inferInstanceAs (Std.TransCmp (compareLex (compareOn Entry.kind) (compareOn fun e => utf8 e.path)))

/-- Entries between which there is no order have one path. -/
theorem Entry.path_eq_of_order (h : a.order b = .eq) : a.path = b.path := by
  rw [order, Ordering.then_eq_eq] at h
  exact utf8_injective (Std.compare_eq_iff_eq.1 h.2)

namespace Manifest

theorem nodup_canonical : ((canonical es).entries.map (·.path)).Nodup ↔ (es.map (·.path)).Nodup :=
  ((canonical_perm es).map _).nodup_iff

/-- In a canonical manifest, entries with different paths are strictly in order. -/
theorem pairwise_canonical (hdistinct : (es.map (·.path)).Nodup) :
    (canonical es).entries.Pairwise fun a b => a.order b = .lt :=
  pairwise_lt_mergeSort_order Entry.order Entry.path Entry.path_eq_of_order hdistinct

theorem canonical_eq_of_perm (hperm : es.Perm es') (hdistinct : (es.map (·.path)).Nodup) :
    canonical es = canonical es' := by
  refine congrArg Manifest.mk (mergeSort_order_eq_of_perm hperm fun a ha b hb heq => ?_)
  exact List.inj_on_of_nodup_map hdistinct ha hb (Entry.path_eq_of_order heq)

/-! ## Errors of order -/

/-- An entry is out of order if it does not follow the one right before it. -/
theorem checkEntry_ne_outOfOrder (h : ∀ b ∈ before.head?, b.order e = .lt) :
    checkEntry blobLength before e ≠ .error (.outOfOrder path) := by
  have hplace : before.head?.any (·.order e != .lt) = false := by
    cases before with
    | nil => rfl
    | cons b before => simpa using h
  rw [checkEntry, hplace]
  split
  · rintro ⟨⟩
  split
  · rintro ⟨⟩
  rw [if_neg Bool.false_ne_true]
  split
  all_goals
    split
    · rintro ⟨⟩
    · rintro ⟨⟩

theorem checkEntries_ne_outOfOrder (h : (before.head?.toList ++ rest).IsChain fun a b => a.order b = .lt) :
    checkEntries blobLength before rest ≠ .error (.outOfOrder path) := by
  induction rest generalizing before with
  | nil => rintro ⟨⟩
  | cons e rest ih =>
    have hplace : ∀ b ∈ before.head?, b.order e = .lt := by
      cases before with
      | nil => nofun
      | cons b before => simpa using h.rel
    have hrest : (e :: rest).IsChain fun a b => a.order b = .lt := by
      cases before with
      | nil => exact h
      | cons b before => exact h.tail
    rw [checkEntries]
    split
    · next err herr =>
      rintro ⟨⟩
      exact checkEntry_ne_outOfOrder hplace herr
    · exact ih hrest

theorem checkDisjoint_eq_error {err : FormatError} (h : checkDisjoint es = .error err) :
    ∃ a b, err = .overlappingContent a b := by
  fun_induction checkDisjoint es with
  | case1 a b rest hoverlap =>
    cases h
    exact ⟨_, _, rfl⟩
  | case2 a b rest hnot ih => exact ih h
  | case3 => cases h

theorem checkParents_eq_error {err : FormatError} (h : checkParents before rest = .error err) :
    ∃ path parent, err = .missingParent path parent := by
  fun_induction checkParents before rest with
  | case1 => cases h
  | case2 before e rest hneeded ih => exact ih h
  | case3 before e rest parent hneeded hfound ih => exact ih h
  | case4 before e rest parent hneeded hmissing =>
    cases h
    exact ⟨_, _, rfl⟩

theorem validate_ne_outOfOrder (h : m.entries.Pairwise fun a b => a.order b = .lt) :
    m.validate blobLength ≠ .error (.outOfOrder path) := by
  have hentries : checkEntries blobLength [] m.entries ≠ .error (.outOfOrder path) :=
    checkEntries_ne_outOfOrder h.isChain
  rw [validate]
  cases hchecked : checkEntries blobLength [] m.entries with
  | error err =>
    rintro ⟨⟩
    exact hentries hchecked
  | ok _ =>
    cases hdisjoint : checkDisjoint m.byOffset with
    | error err =>
      obtain ⟨a, b, rfl⟩ := checkDisjoint_eq_error hdisjoint
      rintro ⟨⟩
    | ok _ =>
      intro hparents
      obtain ⟨_, _, heq⟩ := checkParents_eq_error hparents
      cases heq

/-! ## Images of canonical manifests -/

/-- A path that comes twice is refused in any order of the entries. -/
theorem exists_encode_canonical_error (h : ¬(es.map (·.path)).Nodup) (blob : Bytes) :
    ∃ err, (canonical es).encode blob = .error err := by
  cases hencode : (canonical es).encode blob with
  | error err => exact ⟨err, rfl⟩
  | ok bytes =>
    have hvalid := (encode_eq_ok_iff.1 hencode).1
    exact absurd (nodup_canonical.1 ((validate_eq_ok_iff_wellFormed _ _).1 hvalid).distinct) h

/-- **Canonical encoding forgets the order of the entries.** Two lists of the same entries are written to the same bytes,
    or neither of them can be written. And whatever else may be wrong with them, entries with different paths are never
    out of order in their canonical manifest. -/
theorem encode_canonical_perm {es es' : List Entry} (hperm : es.Perm es') (blob : Bytes) :
    ((∃ bytes, (canonical es).encode blob = .ok bytes ∧ (canonical es').encode blob = .ok bytes) ∨
      ∃ err err', (canonical es).encode blob = .error err ∧ (canonical es').encode blob = .error err') ∧
    ((es.map (·.path)).Nodup → ∀ path, (∀ blobLength, (canonical es).validate blobLength ≠ .error (.outOfOrder path)) ∧
      (canonical es).encode blob ≠ .error (.outOfOrder path)) := by
  constructor
  · by_cases hdistinct : (es.map (·.path)).Nodup
    · rw [← canonical_eq_of_perm hperm hdistinct]
      cases (canonical es).encode blob with
      | ok bytes => exact .inl ⟨bytes, rfl, rfl⟩
      | error err => exact .inr ⟨err, err, rfl, rfl⟩
    · obtain ⟨err, herr⟩ := exists_encode_canonical_error hdistinct blob
      obtain ⟨err', herr'⟩ := exists_encode_canonical_error (mt (hperm.map _).nodup_iff.2 hdistinct) blob
      exact .inr ⟨err, err', herr, herr'⟩
  · intro hdistinct path
    have hvalid : ∀ blobLength, (canonical es).validate blobLength ≠ .error (.outOfOrder path) :=
      fun _ => validate_ne_outOfOrder (pairwise_canonical hdistinct)
    refine ⟨hvalid, ?_⟩
    rw [encode]
    split
    · next err herr =>
      rintro ⟨⟩
      exact hvalid _ herr
    · split
      · nofun
      · nofun

/-- A file given before its directory; the other list has them in canonical order. -/
theorem encode_canonical_perm_file_first :
    let d : Entry := .directory "d" none
    let f : Entry := .file "d/f" 0 1 .zero (some 0o644)
    [f, d].Perm [d, f] ∧ ([f, d].map (·.path)).Nodup ∧
      (∃ bytes, (canonical [f, d]).encode [120] = .ok bytes ∧ (canonical [d, f]).encode [120] = .ok bytes) ∧
      ∀ path, (canonical [f, d]).encode [120] ≠ .error (.outOfOrder path) := by
  intro d f
  have hperm : [f, d].Perm [d, f] := .swap d f []
  have hdistinct : ([f, d].map (·.path)).Nodup := by decide
  obtain ⟨hsame | ⟨err, _, herr, -⟩, hordered⟩ := encode_canonical_perm hperm [120]
  · exact ⟨hperm, hdistinct, hsame, fun path => (hordered hdistinct path).2⟩
  · have hvalid : (canonical [f, d]).validate 1 = .ok () := by cbv
    have hshort : ∀ e ∈ [f, d], (utf8 e.path).length ≤ maxPathLength := by decide
    cases herr.symm.trans
      (encode_eq_ok_iff.2 ⟨hvalid, fun e he => hshort e ((canonical_perm _).mem_iff.1 he), rfl⟩)

end Manifest
end TreeImage
