import TreeImage.FileSystem.Walk
import TreeImage.Proofs.Path.Spelling

set_option autoImplicit false

/-! # Where walks lead

`Walks` is the relation that `walk` computes: one constructor for each kind of step. A walk to a directory
meets nothing but directories and links, so it goes the same way wherever those are still in place
(`Keeps`). -/

namespace TreeImage

/-- A name that is looked up in the directory where a walk is. -/
structure IsStep (s : Name) : Prop where
  ne_nil : s ≠ []
  ne_dot : s ≠ dotName
  ne_dotDot : s ≠ dotDotName

theorem IsProperName.isStep {s : Name} (h : IsProperName s) : IsStep s :=
  ⟨h.ne_nil, h.ne_dot, h.ne_dotDot⟩

theorem Node.isDirectory_iff {n : Node} : n.isDirectory = true ↔ ∃ m, n = .directory m := by
  cases n <;> simp [isDirectory, kind]

namespace FileSystem

theorem isDirectoryAt_iff {fs : FileSystem} {d : RealPath} :
    fs.isDirectoryAt d = true ↔ ∃ m, fs.get? d = some (.directory m) := by
  rw [isDirectoryAt, Option.any_eq_true]
  constructor
  · rintro ⟨n, hget, hdir⟩
    obtain ⟨m, rfl⟩ := Node.isDirectory_iff.1 hdir
    exact ⟨m, hget⟩
  · rintro ⟨m, hget⟩
    exact ⟨_, hget, rfl⟩

variable {fs fs' : FileSystem} {followLast : Bool} {links : Nat} {base d q : RealPath} {s : Name}
  {target : Bytes} {rest names : List Name}

/-! ## Walks -/

/-- A walk along names, with at most so many links to follow. -/
inductive Walks (fs : FileSystem) (followLast : Bool) : Nat → RealPath → List Name → RealPath → Prop
  | stop (links : Nat) (base : RealPath) : Walks fs followLast links base [] base
  | stay {links : Nat} {base d : RealPath} {s : Name} {rest : List Name}
      (hbase : fs.isDirectoryAt base = true) (hs : s = [] ∨ s = dotName)
      (next : Walks fs followLast links base rest d) : Walks fs followLast links base (s :: rest) d
  | up {links : Nat} {base d : RealPath} {rest : List Name} (hbase : fs.isDirectoryAt base = true)
      (next : Walks fs followLast links base.dropLast rest d) :
      Walks fs followLast links base (dotDotName :: rest) d
  | last {links : Nat} {base : RealPath} {s : Name} {target : Bytes}
      (hbase : fs.isDirectoryAt base = true) (hs : IsStep s) (hshort : s.length ≤ nameLimit)
      (hlink : fs.get? (base ++ [s]) = some (.symlink target)) (hlast : followLast = false) :
      Walks fs followLast links base [s] (base ++ [s])
  | follow {links : Nat} {base d : RealPath} {s : Name} {target : Bytes} {rest : List Name}
      (hbase : fs.isDirectoryAt base = true) (hs : IsStep s) (hshort : s.length ≤ nameLimit)
      (hlink : fs.get? (base ++ [s]) = some (.symlink target))
      (hmore : rest ≠ [] ∨ followLast = true) (htarget : target ≠ [])
      (next : Walks fs followLast links (walkStart target base) (segments slash target ++ rest) d) :
      Walks fs followLast (links + 1) base (s :: rest) d
  | down {links : Nat} {base d : RealPath} {s : Name} {n : Node} {rest : List Name}
      (hbase : fs.isDirectoryAt base = true) (hs : IsStep s) (hshort : s.length ≤ nameLimit)
      (hget : fs.get? (base ++ [s]) = some n) (hkind : n.kind ≠ .symlink)
      (next : Walks fs followLast links (base ++ [s]) rest d) :
      Walks fs followLast links base (s :: rest) d

/-- Go on behind the next link, if there may be one more. -/
def followLink (fs : FileSystem) (followLast : Bool) :
    Nat → RealPath → List Name → Except Refusal RealPath
  | 0, _, _ => .error .tooManyLinks
  | links + 1, base, names => fs.walk followLast links base names

@[simp] theorem walk_nil (fs : FileSystem) (followLast : Bool) (links : Nat) (base : RealPath) :
    fs.walk followLast links base [] = .ok base := by cases links <;> rfl

theorem walk_eq_walkNames (fs : FileSystem) (followLast : Bool) (links : Nat) :
    fs.walk followLast links = fs.walkNames (fs.followLink followLast links) followLast := by
  cases links <;> rfl

/-- One step of a walk that is in a directory. -/
theorem walk_cons (hbase : fs.isDirectoryAt base = true) :
    fs.walk followLast links base (s :: rest) =
      if s = [] ∨ s = dotName then fs.walk followLast links base rest
      else if s = dotDotName then fs.walk followLast links base.dropLast rest
      else if nameLimit < s.length then .error .nameTooLong
      else match fs.get? (base ++ [s]) with
        | none => .error .notFound
        | some (.symlink target) =>
          if rest = [] ∧ !followLast then .ok (base ++ [s])
          else if target = [] then .error .notFound
          else fs.followLink followLast links (walkStart target base) (segments slash target ++ rest)
        | some _ => fs.walk followLast links (base ++ [s]) rest := by
  obtain ⟨m, hget⟩ := isDirectoryAt_iff.1 hbase
  rewrite [walk_eq_walkNames, walkNames, hget]
  rfl

/-- A walk gets on from a directory only. -/
theorem isDirectoryAt_of_walk (h : fs.walk followLast links base (s :: rest) = .ok d) :
    fs.isDirectoryAt base = true := by
  rw [walk_eq_walkNames, walkNames] at h
  split at h
  · cases h
  · next m hget => exact isDirectoryAt_iff.2 ⟨m, hget⟩
  · cases h

/-- One step to a name, spelled out. -/
theorem walk_cons_step (hbase : fs.isDirectoryAt base = true) (hs : IsStep s) :
    fs.walk followLast links base (s :: rest) =
      if nameLimit < s.length then .error .nameTooLong
      else match fs.get? (base ++ [s]) with
        | none => .error .notFound
        | some (.symlink target) =>
          if rest = [] ∧ !followLast then .ok (base ++ [s])
          else if target = [] then .error .notFound
          else fs.followLink followLast links (walkStart target base) (segments slash target ++ rest)
        | some _ => fs.walk followLast links (base ++ [s]) rest := by
  rw [walk_cons hbase, if_neg (not_or.2 ⟨hs.ne_nil, hs.ne_dot⟩), if_neg hs.ne_dotDot]

theorem walk_cons_down {n : Node} (hbase : fs.isDirectoryAt base = true) (hs : IsStep s)
    (hshort : s.length ≤ nameLimit) (hget : fs.get? (base ++ [s]) = some n)
    (hkind : n.kind ≠ .symlink) :
    fs.walk followLast links base (s :: rest) = fs.walk followLast links (base ++ [s]) rest := by
  rw [walk_cons_step hbase hs, if_neg (Nat.not_lt.2 hshort), hget]
  cases n with
  | symlink target => exact absurd rfl hkind
  | directory _ => rfl
  | file _ _ => rfl
  | special _ => rfl

theorem walk_cons_follow (hbase : fs.isDirectoryAt base = true) (hs : IsStep s)
    (hshort : s.length ≤ nameLimit) (hget : fs.get? (base ++ [s]) = some (.symlink target))
    (hmore : rest ≠ [] ∨ followLast = true) (htarget : target ≠ []) :
    fs.walk followLast (links + 1) base (s :: rest) =
      fs.walk followLast links (walkStart target base) (segments slash target ++ rest) := by
  have hgo : ¬(rest = [] ∧ (!followLast) = true) := by
    rintro ⟨hrest, hlast⟩
    rcases hmore with hmore | rfl
    · exact hmore hrest
    · cases hlast
  rw [walk_cons_step hbase hs, if_neg (Nat.not_lt.2 hshort), hget]
  show (if rest = [] ∧ (!followLast) = true then _ else _) = _
  rw [if_neg hgo, if_neg htarget]
  rfl

/-- The first step of a walk, if what follows it is a walk. -/
theorem walks_cons_of_walk
    (hrest : ∀ base, fs.walk followLast links base rest = .ok d → Walks fs followLast links base rest d)
    (hfollow : ∀ base names, fs.followLink followLast links base names = .ok d →
      ∃ n, links = n + 1 ∧ Walks fs followLast n base names d)
    (h : fs.walk followLast links base (s :: rest) = .ok d) :
    Walks fs followLast links base (s :: rest) d := by
  have hbase := isDirectoryAt_of_walk h
  by_cases hstay : s = [] ∨ s = dotName
  · rw [walk_cons hbase, if_pos hstay] at h
    exact .stay hbase hstay (hrest _ h)
  by_cases hup : s = dotDotName
  · subst hup
    rw [walk_cons hbase, if_neg hstay, if_pos rfl] at h
    exact .up hbase (hrest _ h)
  have hs : IsStep s := ⟨fun e => hstay (.inl e), fun e => hstay (.inr e), hup⟩
  rw [walk_cons_step hbase hs] at h
  by_cases hlong : nameLimit < s.length
  · rw [if_pos hlong] at h
    cases h
  rw [if_neg hlong] at h
  have hshort := Nat.not_lt.1 hlong
  split at h
  · cases h
  · next target hlink =>
    by_cases hend : rest = [] ∧ (!followLast) = true
    · rw [if_pos hend] at h
      obtain ⟨rfl, hlast⟩ := hend
      cases h
      exact .last hbase hs hshort hlink (Bool.not_eq_true' _ ▸ hlast)
    · rw [if_neg hend] at h
      split at h
      · cases h
      · next htarget =>
        obtain ⟨n, rfl, hwalks⟩ := hfollow _ _ h
        have hmore : rest ≠ [] ∨ followLast = true := by
          by_cases hrest : rest = []
          · exact .inr (by simpa [hrest] using hend)
          · exact .inl hrest
        exact .follow hbase hs hshort hlink hmore htarget hwalks
  · next n hlink hget =>
    refine .down hbase hs hshort hget ?_ (hrest _ h)
    intro hkind
    cases n with
    | symlink target => exact hlink target rfl
    | _ => cases hkind

/-- The relation is what `walk` computes. -/
theorem walk_eq_ok_iff :
    fs.walk followLast links base names = .ok d ↔ Walks fs followLast links base names d := by
  constructor
  · intro h
    -- the outer induction is on the links that are left, the inner one on the names
    have halong : ∀ links, (∀ base names, fs.followLink followLast links base names = .ok d →
        ∃ n, links = n + 1 ∧ Walks fs followLast n base names d) →
        ∀ names base, fs.walk followLast links base names = .ok d →
          Walks fs followLast links base names d := by
      intro links hfollow names
      induction names with
      | nil =>
        intro base h
        rw [walk_nil] at h
        cases h
        exact .stop _ _
      | cons s rest ih => exact fun base h => walks_cons_of_walk ih hfollow h
    induction links generalizing base names with
    | zero => exact halong 0 (fun _ _ h => nomatch h) names base h
    | succ links ih => exact halong (links + 1) (fun _ _ h => ⟨links, rfl, ih h⟩) names base h
  · intro h
    induction h with
    | stop links base => exact walk_nil ..
    | stay hbase hs _ ih => rw [walk_cons hbase, if_pos hs, ih]
    | up hbase _ ih =>
      rw [walk_cons hbase, if_neg (by decide), if_pos rfl, ih]
    | @last links base s target hbase hs hshort hlink hlast =>
      rw [walk_cons_step hbase hs, if_neg (Nat.not_lt.2 hshort), hlink, hlast]
      rfl
    | follow hbase hs hshort hlink hmore htarget _ ih =>
      rw [walk_cons_follow hbase hs hshort hlink hmore htarget, ih]
    | down hbase hs hshort hget hkind _ ih => rw [walk_cons_down hbase hs hshort hget hkind, ih]

/-- A walk to the entry of a directory, where a link at the end stays unfollowed. -/
theorem walk_entry (hbase : fs.isDirectoryAt base = true) (hs : IsStep s) :
    fs.walk false links base [s] =
      if nameLimit < s.length then .error .nameTooLong
      else match fs.get? (base ++ [s]) with
        | none => .error .notFound
        | some _ => .ok (base ++ [s]) := by
  rw [walk_cons_step hbase hs]
  cases fs.get? (base ++ [s]) with
  | none => rfl
  | some n => cases n <;> simp

/-- A walk to an entry that is no link. -/
theorem walk_entry_follow (hbase : fs.isDirectoryAt base = true) (hs : IsStep s)
    (hlink : ∀ target, fs.get? (base ++ [s]) ≠ some (.symlink target)) :
    fs.walk true links base [s] = fs.walk false links base [s] := by
  rw [walk_cons_step hbase hs, walk_cons_step hbase hs]
  cases hget : fs.get? (base ++ [s]) with
  | none => rfl
  | some n =>
    cases n with
    | symlink target => exact absurd hget (hlink target)
    | _ => simp

/-! ## Walks in parts -/

theorem Walks.isDirectoryAt (h : Walks fs followLast links base (s :: rest) d) :
    fs.isDirectoryAt base = true := isDirectoryAt_of_walk (walk_eq_ok_iff.2 h)

/-- A walk goes on from where its first part led. -/
theorem Walks.append (followLast : Bool) (h : Walks fs true links base names d) :
    ∃ n, ∀ more, more ≠ [] →
      fs.walk followLast links base (names ++ more) = fs.walk followLast n d more := by
  induction h with
  | stop links base => exact ⟨links, fun _ _ => rfl⟩
  | stay hbase hs _ ih =>
    obtain ⟨n, hn⟩ := ih
    exact ⟨n, fun more hmore => by rw [List.cons_append, walk_cons hbase, if_pos hs, hn more hmore]⟩
  | up hbase _ ih =>
    obtain ⟨n, hn⟩ := ih
    refine ⟨n, ?_⟩
    intro more hmore
    rw [List.cons_append, walk_cons hbase, if_neg (by decide), if_pos rfl, hn more hmore]
  | last _ _ _ _ hlast => cases hlast
  | follow hbase hs hshort hlink _ htarget _ ih =>
    obtain ⟨n, hn⟩ := ih
    refine ⟨n, ?_⟩
    intro more hmore
    -- with more names to come, a link is followed wherever it stands
    rw [List.cons_append, walk_cons_follow hbase hs hshort hlink _ htarget, ← List.append_assoc,
      hn more hmore]
    exact .inl (List.append_ne_nil_of_right_ne_nil _ hmore)
  | down hbase hs hshort hget hkind _ ih =>
    obtain ⟨n, hn⟩ := ih
    exact ⟨n, fun more hmore => by
      rw [List.cons_append, walk_cons_down hbase hs hshort hget hkind, hn more hmore]⟩

/-- The last name of a walk is looked up where the names before it lead. -/
theorem Walks.split {before : List Name}
    (h : Walks fs followLast links base (before ++ [s]) d) :
    ∃ n q, Walks fs true links base before q ∧ Walks fs followLast n q [s] d := by
  generalize hnames : before ++ [s] = names at h
  -- in every case, either this step is the last one or there are names before the last
  induction h generalizing before with
  | stop _ _ => exact absurd hnames (List.append_ne_nil_of_right_ne_nil _ (List.cons_ne_nil _ _))
  | stay hbase hs next ih =>
    cases before with
    | nil =>
      cases hnames
      exact ⟨_, _, .stop _ _, .stay hbase hs next⟩
    | cons _ before =>
      cases hnames
      obtain ⟨n, q, hq, hlast⟩ := ih rfl
      exact ⟨n, q, .stay hbase hs hq, hlast⟩
  | up hbase next ih =>
    cases before with
    | nil =>
      cases hnames
      exact ⟨_, _, .stop _ _, .up hbase next⟩
    | cons _ before =>
      cases hnames
      obtain ⟨n, q, hq, hlast⟩ := ih rfl
      exact ⟨n, q, .up hbase hq, hlast⟩
  | last hbase hs hshort hlink hlast =>
    cases before with
    | nil =>
      cases hnames
      exact ⟨0, _, .stop _ _, .last hbase hs hshort hlink hlast⟩
    | cons _ before => exact absurd (List.cons.inj hnames).2 (by simp)
  | follow hbase hs hshort hlink hmore htarget next ih =>
    cases before with
    | nil =>
      cases hnames
      exact ⟨_, _, .stop _ _, .follow hbase hs hshort hlink hmore htarget next⟩
    | cons _ before =>
      cases hnames
      obtain ⟨n, q, hq, hlast⟩ := ih (List.append_assoc ..)
      exact ⟨n, q, .follow hbase hs hshort hlink (.inr rfl) htarget hq, hlast⟩
  | down hbase hs hshort hget hkind next ih =>
    cases before with
    | nil =>
      cases hnames
      exact ⟨_, _, .stop _ _, .down hbase hs hshort hget hkind next⟩
    | cons _ before =>
      cases hnames
      obtain ⟨n, q, hq, hlast⟩ := ih rfl
      exact ⟨n, q, .down hbase hs hshort hget hkind hq, hlast⟩

/-- Walks lead to proper places. -/
theorem Walks.isProper (h : Walks fs followLast links base names d) (hbase : base.IsProper)
    (hnames : ∀ s ∈ names, slash ∉ s) : d.IsProper := by
  induction h with
  | stop _ _ => exact hbase
  | stay _ _ _ ih => exact ih hbase (List.forall_mem_cons.1 hnames).2
  | up _ _ ih =>
    exact ih (fun n hn => hbase n (List.dropLast_subset _ hn)) (List.forall_mem_cons.1 hnames).2
  | last _ hs _ _ _ =>
    have hslash := (List.forall_mem_cons.1 hnames).1
    exact RealPath.isProper_append.2
      ⟨hbase, RealPath.isProper_singleton.2 ⟨hs.ne_nil, hs.ne_dot, hs.ne_dotDot, hslash⟩⟩
  | follow _ _ _ _ _ _ _ ih =>
    refine ih ?_ ?_
    · rw [walkStart]
      split
      · exact RealPath.isProper_nil
      · exact hbase
    · exact List.forall_mem_append.2
        ⟨fun _ => not_mem_of_mem_segments, (List.forall_mem_cons.1 hnames).2⟩
  | down _ hs _ _ _ _ ih =>
    obtain ⟨hslash, hrest⟩ := List.forall_mem_cons.1 hnames
    exact ih (RealPath.isProper_append.2
      ⟨hbase, RealPath.isProper_singleton.2 ⟨hs.ne_nil, hs.ne_dot, hs.ne_dotDot, hslash⟩⟩) hrest

/-! ## Directories and links that stay -/

/-- Every directory and every link is still there. -/
structure Keeps (fs fs' : FileSystem) : Prop where
  cwd : fs'.cwd = fs.cwd
  directory : ∀ p, fs.isDirectoryAt p = true → fs'.isDirectoryAt p = true
  link : ∀ p target, fs.get? p = some (.symlink target) → fs'.get? p = some (.symlink target)

theorem Keeps.refl (fs : FileSystem) : Keeps fs fs := ⟨rfl, fun _ h => h, fun _ _ h => h⟩

theorem Keeps.trans {fs'' : FileSystem} (h : Keeps fs fs') (h' : Keeps fs' fs'') : Keeps fs fs'' :=
  ⟨h'.cwd.trans h.cwd, fun p hp => h'.directory p (h.directory p hp),
    fun p t hp => h'.link p t (h.link p t hp)⟩

/-- Walks to directories go the same way. -/
theorem Walks.keeps (h : Walks fs followLast links base names d) (hd : fs.isDirectoryAt d = true)
    (hkeeps : Keeps fs fs') : Walks fs' followLast links base names d := by
  induction h with
  | stop links base => exact .stop links base
  | stay hbase hs _ ih => exact .stay (hkeeps.directory _ hbase) hs (ih hd)
  | up hbase _ ih => exact .up (hkeeps.directory _ hbase) (ih hd)
  | last hbase hs hshort hlink hlast =>
    obtain ⟨m, hdir⟩ := isDirectoryAt_iff.1 hd
    exact absurd (hlink.symm.trans hdir) (by simp)
  | follow hbase hs hshort hlink hmore htarget _ ih =>
    exact .follow (hkeeps.directory _ hbase) hs hshort (hkeeps.link _ _ hlink) hmore htarget (ih hd)
  | @down links base d s n rest hbase hs hshort hget hkind next ih =>
    -- what the walk goes through is a directory, be it where it ends
    have hdir : fs.isDirectoryAt (base ++ [s]) = true := by
      cases rest with
      | nil =>
        cases next
        exact hd
      | cons t rest => exact next.isDirectoryAt
    obtain ⟨m, hget'⟩ := isDirectoryAt_iff.1 (hkeeps.directory _ hdir)
    exact .down (hkeeps.directory _ hbase) hs hshort hget' (fun h => nomatch h) (ih hd)

end FileSystem

end TreeImage
