import Mathlib.Data.List.Chain
import Mathlib.Order.CompletePartialOrder
import Mathlib.Order.Interval.Set.Disjoint
import TreeImage.Manifest.Validate

set_option autoImplicit false

/-! # What a manifest should be

`Manifest.WellFormed` says what a manifest has to be for every pair of entries and for every directory on the
way to an entry. `Manifest.validate` looks at neighbours alone: at an entry and the one before it, at two
ranges next to each other in the blob, at the parent of an entry. The two agree. Canonical order and the order
of ranges are transitive, and the parent of an entry has its own parent before it. -/

namespace TreeImage

/-- Byte strings are compared by the first byte in which they differ. -/
theorem compare_bytes_eq_lt_iff {as bs : Bytes} : compare as bs = .lt ↔ as < bs := by
  induction as generalizing bs with
  | nil =>
    cases bs with
    | nil => simp
    | cons b bs =>
      rw [List.compare_eq_compareLex, List.compareLex_nil_cons]
      simp
  | cons a as ih =>
    cases bs with
    | nil =>
      rw [List.compare_eq_compareLex, List.compareLex_cons_nil]
      simp
    | cons b bs =>
      rw [List.compare_eq_compareLex, List.compareLex_cons_cons, ← List.compare_eq_compareLex,
        Ordering.then_eq_lt, Std.compare_eq_lt, Std.compare_eq_iff_eq, ih, List.cons_lt_cons_iff]

namespace Entry

/-- The places of the blob that the content of an entry takes. -/
def range (e : Entry) : Set Nat := Set.Ico e.start e.stop

/-- What an entry has to be by itself: a directory has no content, and a file has its content inside the
    blob. -/
def FitsIn (blobLength : Nat) (e : Entry) : Prop :=
  (e.isDirectory = true → e.size = 0 ∧ e.offset = 0 ∧ e.digest = .zero) ∧
    (e.isFile = true → e.start + e.size.toNat ≤ blobLength)

/-- Canonical order in words: a directory before a file, or by path between two of a kind. -/
theorem order_eq_lt_iff {a b : Entry} : a.order b = .lt ↔
    (a.isDirectory = true ∧ b.isFile = true) ∨ (a.kind = b.kind ∧ utf8 a.path < utf8 b.path) := by
  have hlt : ∀ k l : EntryKind, compare k l = .lt ↔ k = .directory ∧ l = .file := by
    intro k l
    cases k <;> cases l <;> decide
  have heq : ∀ k l : EntryKind, compare k l = .eq ↔ k = l := by
    intro k l
    cases k <;> cases l <;> decide
  unfold order isDirectory isFile
  rw [Ordering.then_eq_lt, compare_bytes_eq_lt_iff, hlt, heq, beq_iff_eq, beq_iff_eq]

theorem order_trans {a b c : Entry} (hab : a.order b = .lt) (hbc : b.order c = .lt) : a.order c = .lt := by
  rw [order_eq_lt_iff] at *
  unfold isDirectory isFile at *
  rcases hab with ⟨ha, hb⟩ | ⟨hkind, hlt⟩ <;> rcases hbc with ⟨hb', hc⟩ | ⟨hkind', hlt'⟩
  · simp_all
  · simp_all
  · simp_all
  · exact .inr ⟨hkind.trans hkind', List.lt_trans hlt hlt'⟩

end Entry

namespace Manifest

/-- `front` is a place on the way to `path`: what comes before one of its slashes, unless that is nothing. -/
def IsOnTheWay (front path : String) : Prop := front ≠ "" ∧ ∃ back, path.toList = front.toList ++ '/' :: back

/-- What a manifest over a blob of this length should be. -/
structure WellFormed (m : Manifest) (blobLength : Nat) : Prop where
  present : ∀ e ∈ m.entries, e.path ≠ ""
  distinct : (m.entries.map (·.path)).Nodup
  directoriesFirst : m.entries.Pairwise fun a b => ¬ (a.isFile = true ∧ b.isDirectory = true)
  sortedDirectories : m.directories.Pairwise fun a b => utf8 a.path < utf8 b.path
  sortedFiles : m.files.Pairwise fun a b => utf8 a.path < utf8 b.path
  bareDirectories : ∀ e ∈ m.directories, e.size = 0 ∧ e.offset = 0 ∧ e.digest = .zero
  filesInside : ∀ e ∈ m.files, e.offset.toNat + e.size.toNat ≤ blobLength
  /-- No byte of the blob belongs to two files that have content. -/
  disjointFiles : (m.files.filter (·.size != 0)).Pairwise fun a b => Disjoint a.range b.range
  /-- Each directory on the way to an entry comes before the entry. -/
  directoriesAbove : ∀ before e after, m.entries = before ++ e :: after → ∀ front, IsOnTheWay front e.path →
    ∃ d ∈ before, d.isDirectory = true ∧ d.path = front

variable {blobLength : Nat} {e : Entry} {m : Manifest} {before rest es : List Entry}

/-! ## One entry after another -/

theorem checkEntry_eq_ok_iff : checkEntry blobLength before e = .ok () ↔
    e.path ≠ "" ∧ (∀ b ∈ before, b.path ≠ e.path) ∧ (∀ b ∈ before.head?, b.order e = .lt) ∧
      e.FitsIn blobLength := by
  have hrefused : ∀ (c : Prop) [Decidable c] (err : FormatError) (next : Except FormatError Unit),
      (if c then .error err else next) = .ok () ↔ ¬ c ∧ next = .ok () := by
    intro c _ err next
    split <;> simp_all
  have hplace : ¬ before.head?.any (·.order e != .lt) = true ↔ ∀ b ∈ before.head?, b.order e = .lt := by
    cases before <;> simp
  have hnew : ¬ before.any (·.path == e.path) = true ↔ ∀ b ∈ before, b.path ≠ e.path := by simp
  unfold checkEntry Entry.FitsIn Entry.isDirectory Entry.isFile
  rw [hrefused, hrefused, hrefused, hplace, hnew, String.isEmpty_iff, ← Digest.isZero_iff]
  cases e.kind with
  | directory => simp [hrefused]
  | file =>
    rw [hrefused]
    simp [Entry.stop, Entry.start]

/-- Entries are checked one by one: each by itself, against all before it for its path, and against the one
    right before it for its place. -/
theorem checkEntries_eq_ok_iff : checkEntries blobLength before rest = .ok () ↔
    (∀ e ∈ rest, e.path ≠ "") ∧ (∀ e ∈ rest, e.FitsIn blobLength) ∧ (rest.map (·.path)).Nodup ∧
      (∀ e ∈ rest, ∀ b ∈ before, b.path ≠ e.path) ∧
      (before.head?.toList ++ rest).IsChain (fun a b => a.order b = .lt) := by
  induction rest generalizing before with
  | nil => cases before <;> simp [checkEntries]
  | cons e rest ih =>
    have hstep : checkEntries blobLength before (e :: rest) = .ok () ↔
        checkEntry blobLength before e = .ok () ∧ checkEntries blobLength (e :: before) rest = .ok () := by
      rw [checkEntries]
      split <;> simp_all
    have hchain : (before.head?.toList ++ e :: rest).IsChain (fun a b => a.order b = .lt) ↔
        (∀ b ∈ before.head?, b.order e = .lt) ∧ (e :: rest).IsChain (fun a b => a.order b = .lt) := by
      cases before <;> simp
    have hdistinct : ((e :: rest).map (·.path)).Nodup ↔
        (∀ e' ∈ rest, e.path ≠ e'.path) ∧ (rest.map (·.path)).Nodup := by
      simp [List.nodup_cons, eq_comm]
    rw [hstep, checkEntry_eq_ok_iff, ih, hchain, hdistinct]
    simp only [List.forall_mem_cons, List.head?_cons, Option.toList_some, List.singleton_append, forall_and]
    tauto

/-! ## Content ranges -/

theorem checkDisjoint_eq_ok_iff_isChain :
    checkDisjoint es = .ok () ↔ es.IsChain fun a b => a.stop ≤ b.start := by
  induction es with
  | nil => simp [checkDisjoint]
  | cons a es ih =>
    cases es with
    | nil => simp [checkDisjoint]
    | cons b es =>
      rw [List.isChain_cons_cons, checkDisjoint, ← Nat.not_lt, ← ih]
      split <;> simp_all

/-- Ranges that end before the next begins end before all that follow begin. -/
theorem checkDisjoint_eq_ok_iff : checkDisjoint es = .ok () ↔ es.Pairwise fun a b => a.stop ≤ b.start := by
  have : Trans (fun a b : Entry => a.stop ≤ b.start) (fun a b : Entry => a.stop ≤ b.start)
      (fun a b : Entry => a.stop ≤ b.start) :=
    ⟨fun {a b c} hab hbc => hab.trans ((Nat.le_add_right _ _).trans hbc)⟩
  rw [checkDisjoint_eq_ok_iff_isChain, List.isChain_iff_pairwise]

/-- Between files with content, sorted by where it starts, the order of ranges says that they are disjoint. -/
theorem checkDisjoint_byOffset_eq_ok_iff : checkDisjoint m.byOffset = .ok () ↔
    (m.files.filter (·.size != 0)).Pairwise fun a b => Disjoint a.range b.range := by
  have hperm : m.byOffset.Perm (m.files.filter (·.size != 0)) := List.mergeSort_perm _ _
  have hsorted : m.byOffset.Pairwise fun a b => a.start ≤ b.start := by
    have htrans : ∀ a b c : Entry, decide (a.offset ≤ b.offset) = true → decide (b.offset ≤ c.offset) = true →
        decide (a.offset ≤ c.offset) = true := by
      intro a b c hab hbc
      rw [decide_eq_true_eq] at *
      exact UInt64.le_trans hab hbc
    have htotal : ∀ a b : Entry, (decide (a.offset ≤ b.offset) || decide (b.offset ≤ a.offset)) = true := by
      intro a b
      simpa using UInt64.le_total a.offset b.offset
    refine (List.pairwise_mergeSort htrans htotal _).imp fun hle => ?_
    exact UInt64.le_iff_toNat_le.1 (of_decide_eq_true hle)
  have hfull : ∀ e ∈ m.byOffset, e.start < e.stop := by
    intro e he
    have hsize : e.size ≠ 0 := by simpa using (List.mem_filter.1 (hperm.mem_iff.1 he)).2
    exact Nat.lt_add_of_pos_right (Nat.pos_of_ne_zero fun h => hsize (UInt64.toNat_inj.1 h))
  rw [checkDisjoint_eq_ok_iff, ← hperm.pairwise_iff fun h => h.symm]
  constructor
  · intro h
    refine h.imp fun hle => ?_
    exact Set.Ico_disjoint_Ico.2 ((min_le_left _ _).trans (hle.trans (le_max_right _ _)))
  · intro h
    refine (hsorted.and h).imp_of_mem fun {a b} ha hb ⟨hle, hdisjoint⟩ => ?_
    have := Set.Ico_disjoint_Ico.1 hdisjoint
    have := hfull a ha
    have := hfull b hb
    omega

/-! ## Parents -/

/-- A place on the way to an entry is the parent, or on the way to the parent. -/
theorem isOnTheWay_iff {front path : String} : IsOnTheWay front path ↔
    ∃ parent, parentPath? path = some parent ∧ (front = parent ∧ parent ≠ "" ∨ IsOnTheWay front parent) := by
  constructor
  · rintro ⟨hne, back, hback⟩
    cases hparent : parentPath? path with
    | none =>
      have := slash_not_mem_of_parentPath?_eq_none hparent
      simp [hback] at this
    | some parent =>
      refine ⟨parent, rfl, ?_⟩
      have hlast := slash_not_mem_lastSegment path
      have heq := hback.symm.trans (parentPath?_eq_some hparent)
      rcases List.append_eq_append_iff.1 heq with ⟨middle, hmiddle, hrest⟩ | ⟨middle, hmiddle, hrest⟩
      · cases middle with
        | nil =>
          have : front = parent := String.toList_inj.1 (by simpa using hmiddle.symm)
          exact .inl ⟨this, this ▸ hne⟩
        | cons c middle =>
          obtain ⟨rfl, -⟩ := List.cons_eq_cons.1 hrest
          exact .inr ⟨hne, middle, hmiddle⟩
      · cases middle with
        | nil =>
          have : front = parent := String.toList_inj.1 (by simpa using hmiddle)
          exact .inl ⟨this, this ▸ hne⟩
        | cons c middle =>
          -- a slash would stand in the last segment
          obtain ⟨-, hlast'⟩ := List.cons_eq_cons.1 hrest
          simp [hlast'] at hlast
  · rintro ⟨parent, hparent, ⟨rfl, hne⟩ | ⟨hne, back, hback⟩⟩
    · exact ⟨hne, _, parentPath?_eq_some hparent⟩
    · refine ⟨hne, back ++ '/' :: (lastSegment path).toList, ?_⟩
      rw [parentPath?_eq_some hparent, hback]
      simp

/-- A doubled slash has a place of its own on the way; what stands before the first character has none. -/
example : IsOnTheWay "/" "//x" ∧ ¬ IsOnTheWay "" "/x" := ⟨⟨by decide, ['x'], by decide⟩, fun h => h.1 rfl⟩

theorem neededParent?_eq_some_iff {parent : String} :
    neededParent? e = some parent ↔ parentPath? e.path = some parent ∧ parent ≠ "" := by
  simp [neededParent?, Entry.parent?, Option.filter_eq_some_iff]

/-- The parent of the first entry is there, and the rest is checked after it. -/
theorem checkParents_cons_eq_ok_iff : checkParents before (e :: rest) = .ok () ↔
    (∀ parent, neededParent? e = some parent → ∃ d ∈ before, d.isDirectory = true ∧ d.path = parent) ∧
      checkParents (e :: before) rest = .ok () := by
  rw [checkParents]
  cases neededParent? e with
  | none => simp
  | some parent =>
    simp only
    split <;> simp_all [isDirectoryAt]

/-- The parent of every entry is a directory among those before the entry, the newest of which comes first. -/
theorem checkParents_eq_ok_iff : checkParents before rest = .ok () ↔
    ∀ middle e after, rest = middle ++ e :: after → ∀ parent, neededParent? e = some parent →
      ∃ d ∈ middle.reverse ++ before, d.isDirectory = true ∧ d.path = parent := by
  induction rest generalizing before with
  | nil => simp [checkParents]
  | cons e rest ih =>
    rw [checkParents_cons_eq_ok_iff, ih]
    constructor
    · rintro ⟨hnow, hlater⟩ middle e' after heq
      cases middle with
      | nil =>
        obtain ⟨rfl, -⟩ := List.cons_eq_cons.1 heq
        exact hnow
      | cons b middle =>
        obtain ⟨rfl, hrest⟩ := List.cons_eq_cons.1 heq
        simpa using hlater middle e' after hrest
    · intro h
      refine ⟨by simpa using h [] e rest rfl, fun middle e' after heq => ?_⟩
      simpa using h (e :: middle) e' after (by rw [heq, List.cons_append])

/-- When the parent of every entry comes before it, so does every place on the way to the entry. -/
theorem checkParents_nil_eq_ok_iff : checkParents [] es = .ok () ↔
    ∀ before e after, es = before ++ e :: after → ∀ front, IsOnTheWay front e.path →
      ∃ d ∈ before, d.isDirectory = true ∧ d.path = front := by
  rw [checkParents_eq_ok_iff]
  simp only [List.append_nil, List.mem_reverse]
  constructor
  · intro h before
    -- the parent has a shorter list before it, in which the other places on the way are found
    induction hlength : before.length using Nat.strong_induction_on generalizing before with
    | _ length ih =>
      intro e after heq front hfront
      obtain ⟨parent, hparent, hcases⟩ := isOnTheWay_iff.1 hfront
      have hne : parent ≠ "" := by
        rcases hcases with ⟨-, hne⟩ | ⟨-, back, hback⟩
        · exact hne
        · rintro rfl
          simp at hback
      obtain ⟨d, hd, hdir, hpath⟩ := h before e after heq parent (neededParent?_eq_some_iff.2 ⟨hparent, hne⟩)
      rcases hcases with ⟨rfl, -⟩ | habove
      · exact ⟨d, hd, hdir, hpath⟩
      · obtain ⟨before', after', rfl⟩ := List.append_of_mem hd
        obtain ⟨d', hd', h'⟩ := ih before'.length (by simp [← hlength]) before' rfl d (after' ++ e :: after)
          (by simpa using heq) front (hpath ▸ habove)
        exact ⟨d', List.mem_append_left _ hd', h'⟩
  · intro h before e after heq parent hneeded
    obtain ⟨hparent, hne⟩ := neededParent?_eq_some_iff.1 hneeded
    exact h before e after heq parent ⟨hne, _, parentPath?_eq_some hparent⟩

/-! ## The whole check -/

/-- Canonical order between any two entries: directories first, and each kind sorted. -/
theorem pairwise_order_iff : m.entries.Pairwise (fun a b => a.order b = .lt) ↔
    m.entries.Pairwise (fun a b => ¬ (a.isFile = true ∧ b.isDirectory = true)) ∧
      m.directories.Pairwise (fun a b => utf8 a.path < utf8 b.path) ∧
      m.files.Pairwise fun a b => utf8 a.path < utf8 b.path := by
  unfold directories files
  rw [List.pairwise_filter, List.pairwise_filter, ← List.pairwise_and_iff, ← List.pairwise_and_iff]
  refine List.Pairwise.iff fun {a b} => ?_
  rw [Entry.order_eq_lt_iff]
  unfold Entry.isDirectory Entry.isFile
  cases a.kind <;> cases b.kind <;> simp

/-- **The check accepts exactly the well-formed manifests.** -/
theorem validate_eq_ok_iff_wellFormed (m : Manifest) (blobLength : Nat) :
    m.validate blobLength = .ok () ↔ m.WellFormed blobLength := by
  have : Trans (fun a b : Entry => a.order b = .lt) (fun a b : Entry => a.order b = .lt)
      (fun a b : Entry => a.order b = .lt) := ⟨Entry.order_trans⟩
  have hchecks : m.validate blobLength = .ok () ↔ checkEntries blobLength [] m.entries = .ok () ∧
      checkDisjoint m.byOffset = .ok () ∧ checkParents [] m.entries = .ok () := by
    unfold validate
    cases checkEntries blobLength [] m.entries with
    | error err => simp [bind, Except.bind]
    | ok u => cases hd : checkDisjoint m.byOffset <;> simp [bind, Except.bind]
  have hfits : (∀ e ∈ m.entries, e.FitsIn blobLength) ↔
      (∀ e ∈ m.directories, e.size = 0 ∧ e.offset = 0 ∧ e.digest = .zero) ∧
        ∀ e ∈ m.files, e.offset.toNat + e.size.toNat ≤ blobLength := by
    simp only [directories, files, List.mem_filter, Entry.FitsIn, Entry.start]
    grind
  rw [hchecks, checkEntries_eq_ok_iff, checkDisjoint_byOffset_eq_ok_iff, checkParents_nil_eq_ok_iff]
  rw [List.head?_nil, Option.toList_none, List.nil_append, List.isChain_iff_pairwise, pairwise_order_iff, hfits]
  constructor
  · rintro ⟨⟨hpresent, ⟨hbare, hinside⟩, hdistinct, -, hfirst, hdirs, hfiles⟩, hdisjoint, habove⟩
    exact ⟨hpresent, hdistinct, hfirst, hdirs, hfiles, hbare, hinside, hdisjoint, habove⟩
  · intro h
    exact ⟨⟨h.present, ⟨h.bareDirectories, h.filesInside⟩, h.distinct, by simp, h.directoriesFirst,
      h.sortedDirectories, h.sortedFiles⟩, h.disjointFiles, h.directoriesAbove⟩

end Manifest
end TreeImage
