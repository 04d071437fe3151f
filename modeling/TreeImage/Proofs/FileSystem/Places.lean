import TreeImage.Proofs.FileSystem.Walking

set_option autoImplicit false

/-! # Directories and their entries

`LeadsTo p d` says that a path leads to the directory at the place `d`. A spelling `toPath (r ++ [n])`
then names the entry `n` of that directory, and only calls on that entry are made through it. -/

namespace TreeImage

namespace FileSystem

variable {fs fs' : FileSystem} {followLast : Bool} {p : Path} {d q r : RealPath} {n : Name} {x : Node}

/-! ## What paths lead to -/

theorem resolve_eq_ok_iff : fs.resolve followLast p = .ok q ↔ p.hasNul = false ∧ p.isEmpty = false ∧
    Walks fs followLast linkLimit (walkStart p.bytes fs.cwd) p.rawSegments q := by
  rw [resolve, admissible, ← walk_eq_ok_iff]
  cases p.hasNul <;> cases p.isEmpty <;> simp

theorem find_of_resolve (h : fs.resolve followLast p = .ok q) :
    fs.find followLast p =
      match fs.get? q with
      | none => .error .notFound
      | some x => .ok (q, x) := by
  rewrite [find, h]
  rfl

theorem find_eq_ok_iff :
    fs.find followLast p = .ok (q, x) ↔ fs.resolve followLast p = .ok q ∧ fs.get? q = some x := by
  cases hresolve : fs.resolve followLast p with
  | error e =>
    rw [find, hresolve]
    exact ⟨(fun h => nomatch h), fun h => nomatch h.1⟩
  | ok q' =>
    rw [find_of_resolve hresolve]
    constructor
    · intro h
      split at h
      · cases h
      · next hget =>
        cases h
        exact ⟨rfl, hget⟩
    · rintro ⟨hq, hx⟩
      cases hq
      rw [hx]

/-- The path leads to the directory at a place. -/
def LeadsTo (fs : FileSystem) (p : Path) (d : RealPath) : Prop :=
  fs.resolve true p = .ok d ∧ fs.isDirectoryAt d = true

theorem leadsTo_of_find {m : UInt32} (h : fs.find true p = .ok (d, .directory m)) : fs.LeadsTo p d := by
  obtain ⟨hresolve, hget⟩ := find_eq_ok_iff.1 h
  exact ⟨hresolve, isDirectoryAt_iff.2 ⟨m, hget⟩⟩

theorem LeadsTo.find (h : fs.LeadsTo p d) : ∃ m, fs.find true p = .ok (d, .directory m) := by
  obtain ⟨m, hget⟩ := isDirectoryAt_iff.1 h.2
  exact ⟨m, find_eq_ok_iff.2 ⟨h.1, hget⟩⟩

theorem LeadsTo.unique (h : fs.LeadsTo p d) (h' : fs.LeadsTo p q) : d = q :=
  Except.ok.inj (h.1.symm.trans h'.1)

theorem Keeps.leadsTo (hkeeps : Keeps fs fs') (h : fs.LeadsTo p d) : fs'.LeadsTo p d := by
  obtain ⟨hresolve, hdir⟩ := h
  obtain ⟨hnul, hempty, hwalks⟩ := resolve_eq_ok_iff.1 hresolve
  refine ⟨resolve_eq_ok_iff.2 ⟨hnul, hempty, ?_⟩, hkeeps.directory d hdir⟩
  rw [hkeeps.cwd]
  exact hwalks.keeps hdir hkeeps

/-! ## Spelled places -/

/-- Where a spelling leads depends on its names only. -/
theorem resolve_toPath (hr : r.IsProper) (hnul : r.toPath.hasNul = false) :
    fs.resolve followLast r.toPath = fs.walk followLast linkLimit [] ([] :: r) := by
  have hstart : walkStart r.toPath.bytes fs.cwd = [] := if_pos rfl
  have hadmissible : admissible r.toPath = .ok () := by
    rw [admissible, hnul, if_neg Bool.false_ne_true]
    rfl
  rw [resolve, hadmissible, hstart]
  show fs.walk followLast linkLimit [] r.toPath.rawSegments = _
  by_cases hne : r = []
  · subst hne
    -- the spelling of the top has an empty segment more than it has names
    rw [RealPath.rawSegments_nil, walk_eq_walkNames, walkNames, walkNames]
    cases fs.get? [] with
    | none => rfl
    | some x => cases x <;> simp [walkNames]
  · rw [RealPath.rawSegments_toPath hne hr]

theorem leadsTo_toPath_iff (hr : r.IsProper) : fs.LeadsTo r.toPath d ↔
    r.toPath.hasNul = false ∧ Walks fs true linkLimit [] ([] :: r) d ∧ fs.isDirectoryAt d = true := by
  constructor
  · rintro ⟨hresolve, hdir⟩
    have hnul := (resolve_eq_ok_iff.1 hresolve).1
    rw [resolve_toPath hr hnul, walk_eq_ok_iff] at hresolve
    exact ⟨hnul, hresolve, hdir⟩
  · rintro ⟨hnul, hwalks, hdir⟩
    exact ⟨(resolve_toPath hr hnul).trans (walk_eq_ok_iff.2 hwalks), hdir⟩

/-- Spelled places lead to proper places. -/
theorem isProper_of_resolve (hr : r.IsProper) (h : fs.resolve followLast r.toPath = .ok d) :
    d.IsProper := by
  have hnul := (resolve_eq_ok_iff.1 h).1
  rw [resolve_toPath hr hnul, walk_eq_ok_iff] at h
  refine h.isProper RealPath.isProper_nil ?_
  exact List.forall_mem_cons.2 ⟨List.not_mem_nil, fun n hn => (hr n hn).slash_not_mem⟩

/-! ## Entries of a directory -/

section Entry

variable (hproper : RealPath.IsProper (r ++ [n]))

include hproper

theorem hasNul_entry (h : fs.LeadsTo r.toPath d) :
    (RealPath.toPath (r ++ [n])).hasNul = n.contains 0 := by
  have hnul := ((leadsTo_toPath_iff (RealPath.isProper_append.1 hproper).1).1 h).1
  rw [RealPath.hasNul_toPath] at hnul ⊢
  rw [List.any_append, hnul, Bool.false_or, List.any_cons, List.any_nil, Bool.or_false]

/-- An entry is looked up in its directory. -/
theorem resolve_entry_of_leadsTo (followLast : Bool) (h : fs.LeadsTo r.toPath d)
    (hnul : n.contains 0 = false) :
    ∃ links, fs.resolve followLast (RealPath.toPath (r ++ [n])) = fs.walk followLast links d [n] := by
  obtain ⟨-, hwalks, -⟩ := (leadsTo_toPath_iff (RealPath.isProper_append.1 hproper).1).1 h
  obtain ⟨links, hlinks⟩ := hwalks.append followLast
  refine ⟨links, ?_⟩
  rw [resolve_toPath hproper ((hasNul_entry hproper h).trans hnul), ← List.cons_append]
  exact hlinks [n] (List.cons_ne_nil _ _)

/-- What stands at an entry, be it a link. -/
theorem find_entry (h : fs.LeadsTo r.toPath d) : fs.find false (RealPath.toPath (r ++ [n])) =
    if n.contains 0 then .error .nulByte
    else if nameLimit < n.length then .error .nameTooLong
    else match fs.get? (d ++ [n]) with
      | none => .error .notFound
      | some x => .ok (d ++ [n], x) := by
  have hn := (RealPath.isProper_singleton.1 (RealPath.isProper_append.1 hproper).2).isStep
  cases hnul : n.contains 0 with
  | true =>
    rw [find, resolve, admissible, hasNul_entry hproper h, hnul]
    rfl
  | false =>
    obtain ⟨links, hresolve⟩ := resolve_entry_of_leadsTo hproper false h hnul
    rw [walk_entry h.2 hn] at hresolve
    rw [if_neg Bool.false_ne_true]
    by_cases hlong : nameLimit < n.length
    · rw [if_pos hlong] at hresolve ⊢
      rw [find, hresolve]
    · rw [if_neg hlong] at hresolve ⊢
      cases hget : fs.get? (d ++ [n]) with
      | none =>
        rw [hget] at hresolve
        rw [find, hresolve]
      | some x =>
        rw [hget] at hresolve
        rw [find_of_resolve hresolve, hget]

/-- At an entry that is no link there is nothing to follow. -/
theorem find_entry_follow (h : fs.LeadsTo r.toPath d)
    (hlink : ∀ target, fs.get? (d ++ [n]) ≠ some (.symlink target)) :
    fs.find true (RealPath.toPath (r ++ [n])) = fs.find false (RealPath.toPath (r ++ [n])) := by
  have hn := (RealPath.isProper_singleton.1 (RealPath.isProper_append.1 hproper).2).isStep
  cases hnul : n.contains 0 with
  | true =>
    rw [find, find, resolve, resolve, admissible, hasNul_entry hproper h, hnul]
    rfl
  | false =>
    obtain ⟨links, hresolve⟩ := resolve_entry_of_leadsTo hproper true h hnul
    obtain ⟨links', hresolve'⟩ := resolve_entry_of_leadsTo hproper false h hnul
    rw [walk_entry_follow h.2 hn hlink, walk_entry h.2 hn] at hresolve
    rw [walk_entry h.2 hn] at hresolve'
    rw [find, find, hresolve, hresolve']

/-- The spot of a spelled entry. -/
theorem spot_toPath (hnul : (RealPath.toPath (r ++ [n])).hasNul = false) :
    fs.spot (RealPath.toPath (r ++ [n])) =
      match fs.walk true linkLimit [] ([] :: r) with
      | .error e => .error e
      | .ok directory =>
        match fs.get? directory with
        | none => .error .notFound
        | some (.directory _) =>
          if nameLimit < n.length then .error .nameTooLong else .ok ⟨directory, n, false⟩
        | some _ => .error .notDirectory := by
  have hn := RealPath.isProper_singleton.1 (RealPath.isProper_append.1 hproper).2
  have hne : r ++ [n] ≠ [] := List.append_ne_nil_of_right_ne_nil _ (List.cons_ne_nil _ _)
  have hstart : walkStart (RealPath.toPath (r ++ [n])).bytes fs.cwd = [] := if_pos rfl
  have hadmissible : admissible (RealPath.toPath (r ++ [n])) = .ok () := by
    rw [admissible, hnul, if_neg Bool.false_ne_true]
    rfl
  have hsegments : (RealPath.toPath (r ++ [n])).rawSegments.reverse.dropWhile (· = []) =
      n :: ([] :: r).reverse := by
    rw [RealPath.rawSegments_toPath hne hproper, ← List.cons_append, List.reverse_append,
      List.reverse_singleton, List.singleton_append, List.dropWhile_cons_of_neg]
    exact fun h => hn.ne_nil (of_decide_eq_true h)
  have hlast := decide_eq_false (RealPath.getLast?_toPath hproper)
  have hfront : (n :: ([] :: r).reverse).tail.reverse = [] :: r := by
    rw [List.tail_cons, List.reverse_reverse]
  rewrite [spot, hadmissible, hstart]
  cases hwalk : fs.walk true linkLimit [] ([] :: r) with
  | error e => simp only [hsegments, hfront, hwalk]
  | ok directory =>
    cases hget : fs.get? directory with
    | none => simp only [hsegments, hfront, hwalk, hget]
    | some x => cases x <;> simp only [hsegments, hfront, hwalk, hget, List.headD_cons, hlast]

/-- Where a call on an entry makes its change. -/
theorem spot_entry (h : fs.LeadsTo r.toPath d) : fs.spot (RealPath.toPath (r ++ [n])) =
    if n.contains 0 then .error .nulByte
    else if nameLimit < n.length then .error .nameTooLong
    else .ok ⟨d, n, false⟩ := by
  have hentry := hasNul_entry hproper h
  cases hnul : n.contains 0 with
  | true =>
    rw [spot, admissible, hentry, hnul]
    rfl
  | false =>
    obtain ⟨-, hwalks, hdir⟩ := (leadsTo_toPath_iff (RealPath.isProper_append.1 hproper).1).1 h
    obtain ⟨m, hget⟩ := isDirectoryAt_iff.1 hdir
    rw [spot_toPath hproper (hentry.trans hnul), walk_eq_ok_iff.2 hwalks]
    simp only [hget]
    rfl

theorem spot_entry_eq_ok {s : Spot} (h : fs.LeadsTo r.toPath d)
    (hs : fs.spot (RealPath.toPath (r ++ [n])) = .ok s) :
    n.contains 0 = false ∧ n.length ≤ nameLimit ∧ s = ⟨d, n, false⟩ := by
  rw [spot_entry hproper h] at hs
  split at hs
  · cases hs
  · next hnul =>
    split at hs
    · cases hs
    · next hlong =>
      cases hs
      exact ⟨Bool.not_eq_true _ ▸ hnul, Nat.not_lt.1 hlong, rfl⟩

theorem find_entry_eq_ok (h : fs.LeadsTo r.toPath d)
    (hfind : fs.find false (RealPath.toPath (r ++ [n])) = .ok (q, x)) :
    n.contains 0 = false ∧ n.length ≤ nameLimit ∧ q = d ++ [n] ∧ fs.get? q = some x := by
  rw [find_entry hproper h] at hfind
  split at hfind
  · cases hfind
  · next hnul =>
    split at hfind
    · cases hfind
    · next hlong =>
      split at hfind
      · cases hfind
      · next hget =>
        cases hfind
        exact ⟨Bool.not_eq_true _ ▸ hnul, Nat.not_lt.1 hlong, rfl, hget⟩

/-- A directory that is an entry of another is what the spelling leads to. -/
theorem leadsTo_entry (h : fs.LeadsTo r.toPath d) (hnul : n.contains 0 = false)
    (hshort : n.length ≤ nameLimit) (hdir : fs.isDirectoryAt (d ++ [n]) = true) :
    fs.LeadsTo (RealPath.toPath (r ++ [n])) (d ++ [n]) := by
  obtain ⟨m, hget⟩ := isDirectoryAt_iff.1 hdir
  have hlink : ∀ target, fs.get? (d ++ [n]) ≠ some (.symlink target) := by
    intro target hlink
    cases hget.symm.trans hlink
  have hfind : fs.find true (RealPath.toPath (r ++ [n])) = .ok (d ++ [n], .directory m) := by
    rw [find_entry_follow hproper h hlink, find_entry hproper h, hnul, if_neg Bool.false_ne_true,
      if_neg (Nat.not_lt.2 hshort), hget]
  exact leadsTo_of_find hfind

/-- An entry that is found lies in a directory. -/
theorem leadsTo_of_find_entry (h : fs.find followLast (RealPath.toPath (r ++ [n])) = .ok (q, x)) :
    ∃ d, fs.LeadsTo r.toPath d := by
  obtain ⟨hr, hn⟩ := RealPath.isProper_append.1 hproper
  obtain ⟨hresolve, -⟩ := find_eq_ok_iff.1 h
  have hnul := (resolve_eq_ok_iff.1 hresolve).1
  rw [resolve_toPath hproper hnul, walk_eq_ok_iff, ← List.cons_append] at hresolve
  obtain ⟨links, d, hwalks, hlast⟩ := hresolve.split
  rw [RealPath.hasNul_toPath, List.any_append, Bool.or_eq_false_iff] at hnul
  exact ⟨d, (leadsTo_toPath_iff hr).2
    ⟨(RealPath.hasNul_toPath r).trans hnul.1, hwalks, hlast.isDirectoryAt⟩⟩

theorem leadsTo_of_find_directory {m : UInt32}
    (h : fs.find false (RealPath.toPath (r ++ [n])) = .ok (q, .directory m)) :
    fs.LeadsTo (RealPath.toPath (r ++ [n])) q := by
  obtain ⟨d, hd⟩ := leadsTo_of_find_entry hproper h
  obtain ⟨hnul, hshort, rfl, hget⟩ := find_entry_eq_ok hproper hd h
  exact leadsTo_entry hproper hd hnul hshort (isDirectoryAt_iff.2 ⟨m, hget⟩)

/-- A spot that is found lies in a directory. -/
theorem leadsTo_of_spot_entry {s : Spot} (h : fs.spot (RealPath.toPath (r ++ [n])) = .ok s) :
    fs.LeadsTo r.toPath s.directory := by
  have hnul : (RealPath.toPath (r ++ [n])).hasNul = false := by
    cases hnul : (RealPath.toPath (r ++ [n])).hasNul with
    | false => rfl
    | true =>
      rw [spot, admissible, hnul] at h
      cases h
  rw [spot_toPath hproper hnul] at h
  split at h
  · cases h
  · next directory hwalk =>
    split at h
    · cases h
    · next m hget =>
      split at h
      · cases h
      · cases h
        rw [RealPath.hasNul_toPath, List.any_append, Bool.or_eq_false_iff] at hnul
        exact (leadsTo_toPath_iff (RealPath.isProper_append.1 hproper).1).2
          ⟨(RealPath.hasNul_toPath r).trans hnul.1, walk_eq_ok_iff.1 hwalk, isDirectoryAt_iff.2 ⟨m, hget⟩⟩
    · cases h

end Entry

/-! ## Paths that name an entry -/

/-- The path spells the entry `n` of the directory at `d`. -/
def Names (fs : FileSystem) (p : Path) (d : RealPath) (n : Name) : Prop :=
  ∃ r, RealPath.IsProper (r ++ [n]) ∧ p = RealPath.toPath (r ++ [n]) ∧ fs.LeadsTo r.toPath d

theorem Keeps.names (hkeeps : Keeps fs fs') (h : fs.Names p d n) : fs'.Names p d n := by
  obtain ⟨r, hproper, hp, hd⟩ := h
  exact ⟨r, hproper, hp, hkeeps.leadsTo hd⟩

theorem Names.fileName? (h : fs.Names p d n) : p.fileName? = some n := by
  obtain ⟨r, hproper, rfl, -⟩ := h
  exact RealPath.fileName?_toPath hproper

theorem Names.parent? (h : fs.Names p d n) : ∃ parent, p.parent? = some parent ∧ fs.LeadsTo parent d := by
  obtain ⟨r, hproper, rfl, hd⟩ := h
  exact ⟨r.toPath, RealPath.parent?_toPath hproper, hd⟩

theorem Names.unique {d' : RealPath} {n' : Name} (h : fs.Names p d n) (h' : fs.Names p d' n') :
    d' = d ∧ n' = n := by
  obtain ⟨parent, hparent, hd⟩ := h.parent?
  obtain ⟨parent', hparent', hd'⟩ := h'.parent?
  obtain rfl := Option.some.inj (hparent.symm.trans hparent')
  exact ⟨hd'.unique hd, Option.some.inj (h'.fileName?.symm.trans h.fileName?)⟩

/-- A path that names an entry finds that entry, if anything. -/
theorem Names.find_eq_ok (h : fs.Names p d n) (hfind : fs.find false p = .ok (q, x)) :
    q = d ++ [n] ∧ fs.get? q = some x := by
  obtain ⟨r, hproper, rfl, hd⟩ := h
  obtain ⟨-, -, hq, hget⟩ := find_entry_eq_ok hproper hd hfind
  exact ⟨hq, hget⟩

/-- A name that calls accept at the end of a path. -/
def IsAcceptable (n : Name) : Prop := n.contains 0 = false ∧ n.length ≤ nameLimit

theorem Names.isAcceptable_of_find (h : fs.Names p d n) (hfind : fs.find false p = .ok (q, x)) :
    IsAcceptable n := by
  obtain ⟨r, hproper, rfl, hd⟩ := h
  obtain ⟨hnul, hshort, -⟩ := find_entry_eq_ok hproper hd hfind
  exact ⟨hnul, hshort⟩

theorem Names.isAcceptable_of_spot {s : Spot} (h : fs.Names p d n) (hs : fs.spot p = .ok s) :
    IsAcceptable n := by
  obtain ⟨r, hproper, rfl, hd⟩ := h
  obtain ⟨hnul, hshort, -⟩ := spot_entry_eq_ok hproper hd hs
  exact ⟨hnul, hshort⟩

/-- What stands at an entry with an acceptable name is found. -/
theorem Names.find (h : fs.Names p d n) (hn : IsAcceptable n) (hget : fs.get? (d ++ [n]) = some x) :
    fs.find false p = .ok (d ++ [n], x) := by
  obtain ⟨r, hproper, rfl, hd⟩ := h
  obtain ⟨hnul, hshort⟩ := hn
  rw [find_entry hproper hd, hnul, if_neg Bool.false_ne_true, if_neg (Nat.not_lt.2 hshort), hget]

theorem Names.find_eq_notFound (h : fs.Names p d n) (hfind : fs.find false p = .error .notFound) :
    fs.get? (d ++ [n]) = none := by
  obtain ⟨r, hproper, rfl, hd⟩ := h
  rw [find_entry hproper hd] at hfind
  split at hfind
  · cases hfind
  · split at hfind
    · cases hfind
    · split at hfind
      · assumption
      · cases hfind

theorem Names.find_follow (h : fs.Names p d n)
    (hlink : ∀ target, fs.get? (d ++ [n]) ≠ some (.symlink target)) :
    fs.find true p = fs.find false p := by
  obtain ⟨r, hproper, rfl, hd⟩ := h
  exact find_entry_follow hproper hd hlink

theorem Names.spot_eq_ok {s : Spot} (h : fs.Names p d n) (hs : fs.spot p = .ok s) :
    s.place = d ++ [n] := by
  obtain ⟨r, hproper, rfl, hd⟩ := h
  obtain ⟨-, -, rfl⟩ := spot_entry_eq_ok hproper hd hs
  rfl

/-- Whatever is found at a spelled entry, its path names the entry. -/
theorem names_of_find_eq_ok {followLast : Bool} {r : RealPath} (hproper : RealPath.IsProper (r ++ [n]))
    (h : fs.find followLast (RealPath.toPath (r ++ [n])) = .ok (q, x)) :
    ∃ d, fs.Names (RealPath.toPath (r ++ [n])) d n := by
  obtain ⟨d, hd⟩ := leadsTo_of_find_entry hproper h
  exact ⟨d, r, hproper, rfl, hd⟩

end FileSystem

end TreeImage
