import TreeImage.Path.Basic

set_option autoImplicit false

/-! # File systems

A `FileSystem` is a table from real places to nodes, seen by a process with a working directory. The
operations here name real places only; each says through `get?` what it changes and that nothing else
changes (`get?_put`, `get?_erase`). -/

namespace TreeImage

/-! ## Nodes -/

/-- The bits that a mode keeps: set-user, set-group and sticky, and the three permission triplets. -/
def modeMask : UInt32 := 0o7777

/-- What can stand at a place. -/
inductive Node
  | directory (mode : UInt32)
  | file (mode : UInt32) (content : Bytes)
  | symlink (target : Bytes)
  | special (mode : UInt32)
  deriving DecidableEq, Repr, Inhabited

/-- The kinds of node that a caller can tell apart. -/
inductive NodeKind
  | directory
  | file
  | symlink
  | special
  deriving DecidableEq, Repr

namespace Node

/-- The kind of a node. -/
def kind : Node → NodeKind
  | directory _ => .directory
  | file _ _ => .file
  | symlink _ => .symlink
  | special _ => .special

/-- Whether a node is a directory. -/
def isDirectory (n : Node) : Bool := n.kind == .directory

/-- The mode of a node; a link lets everything through. -/
def mode : Node → UInt32
  | directory m => m
  | file m _ => m
  | symlink _ => 0o777
  | special m => m

/-- The node with another mode. -/
def withMode (m : UInt32) : Node → Node
  | directory _ => directory m
  | file _ content => file m content
  | symlink target => symlink target
  | special _ => special m

/-- The content of a file. -/
def content : Node → Bytes
  | file _ content => content
  | _ => []

@[simp] theorem kind_withMode (m : UInt32) (n : Node) : (n.withMode m).kind = n.kind := by
  cases n <;> rfl

end Node

/-! ## The table -/

/-- All nodes by place, where relative paths start, and the path of the running program. -/
structure FileSystem where
  nodes : List (RealPath × Node)
  cwd : RealPath
  executable : Path
  deriving DecidableEq, Repr, Inhabited

namespace FileSystem

/-- The node at a place. -/
def get? (fs : FileSystem) (p : RealPath) : Option Node := fs.nodes.lookup p

/-- Take the entry of a place out of the table. -/
def erase (fs : FileSystem) (p : RealPath) : FileSystem :=
  { fs with nodes := fs.nodes.filter (·.1 != p) }

/-- Let `n` stand at `p`, whatever stood there before. -/
def put (fs : FileSystem) (p : RealPath) (n : Node) : FileSystem :=
  { fs with nodes := (p, n) :: (fs.erase p).nodes }

/-- Whether a directory stands at a place. -/
def isDirectoryAt (fs : FileSystem) (p : RealPath) : Bool := (fs.get? p).any (·.isDirectory)

/-- The name of `q` in the directory `p`, if that is where `q` lies. -/
def childName? (p q : RealPath) : Option Name :=
  match q.getLast? with
  | some n => if q.dropLast = p then some n else none
  | none => none

/-- The names in the directory `p`, in the order of the table. -/
def children (fs : FileSystem) (p : RealPath) : List Name :=
  fs.nodes.filterMap fun (q, _) => childName? p q

/-- Take a place and everything below it out of the table. -/
def eraseTree (fs : FileSystem) (p : RealPath) : FileSystem :=
  { fs with nodes := fs.nodes.filter fun (q, _) => !p.isPrefixOf q }

/-- Move a place and everything below it elsewhere. -/
def moveTree (fs : FileSystem) (p q : RealPath) : FileSystem :=
  { fs with nodes := fs.nodes.map fun (r, n) =>
      (if p.isPrefixOf r then q ++ r.drop p.length else r, n) }

/-! ## What the operations change -/

private theorem lookup_filter_ne {p q : RealPath} {l : List (RealPath × Node)} :
    (l.filter (·.1 != p)).lookup q = if q = p then none else l.lookup q := by
  induction l with
  | nil => simp
  | cons x l ih =>
    obtain ⟨r, n⟩ := x
    by_cases hr : r = p
    · subst hr
      simp only [List.filter_cons, bne_self_eq_false, Bool.false_eq_true, if_false, ih]
      by_cases hq : q = r
      · simp [hq]
      · have : (q == r) = false := by simpa using hq
        simp [List.lookup_cons, this, hq]
    · have : (r != p) = true := by simpa using hr
      simp only [List.filter_cons, this, if_true, List.lookup_cons, ih]
      by_cases hq : q = r
      · subst hq; simp [hr]
      · have : (q == r) = false := by simpa using hq
        simp [this]

theorem get?_erase (fs : FileSystem) (p q : RealPath) :
    (fs.erase p).get? q = if q = p then none else fs.get? q := lookup_filter_ne

theorem get?_put (fs : FileSystem) (p q : RealPath) (n : Node) :
    (fs.put p n).get? q = if q = p then some n else fs.get? q := by
  rw [get?, put, List.lookup_cons]
  by_cases h : q = p
  · simp [h]
  · have hb : (q == p) = false := by simpa using h
    rw [hb, if_neg h]
    exact (get?_erase fs p q).trans (if_neg h)

@[simp] theorem get?_put_self (fs : FileSystem) (p : RealPath) (n : Node) :
    (fs.put p n).get? p = some n := by simp [get?_put]

theorem get?_put_of_ne {fs : FileSystem} {p q : RealPath} (h : q ≠ p) (n : Node) :
    (fs.put p n).get? q = fs.get? q := by
  rw [get?_put, if_neg h]

theorem get?_erase_of_ne {fs : FileSystem} {p q : RealPath} (h : q ≠ p) :
    (fs.erase p).get? q = fs.get? q := by
  rw [get?_erase, if_neg h]

@[simp] theorem cwd_erase (fs : FileSystem) (p : RealPath) : (fs.erase p).cwd = fs.cwd := rfl

end FileSystem

end TreeImage
