import TreeImage.Text.Lossy
import TreeImage.Text.Segments

set_option autoImplicit false

/-! # Paths

A `Path` is the byte string by which a process names a place in the file system. It is kept as given:
doubled slashes, single dots and a final slash stay in it. `components` reads it the way path
arithmetic does, where such spellings make no difference. -/

namespace TreeImage

/-- The byte between two names. -/
def slash : UInt8 := 47

/-- What a directory lists: bytes without slash or NUL. -/
abbrev Name := Bytes

/-- The segment that means "here". -/
def dotName : Name := [46]

/-- The segment that means "one level up". -/
def dotDotName : Name := [46, 46]

/-- A path as given. -/
structure Path where
  bytes : Bytes
  deriving DecidableEq, Repr, Inhabited

/-- One step of a path. -/
inductive Component
  | root
  | here
  | up
  | name (n : Name)
  deriving DecidableEq, Repr

namespace Path

/-- The path spelled by a text. -/
def ofString (s : String) : Path := ⟨utf8 s⟩

/-- How a path is shown in messages. -/
def display (p : Path) : String := lossy p.bytes

instance : ToString Path := ⟨display⟩

@[simp] theorem display_ofString (s : String) : (ofString s).display = s := lossy_utf8 s

/-- The place that relative paths start from. -/
def here : Path := ⟨dotName⟩

/-- Whether a path is the empty byte string. -/
def isEmpty (p : Path) : Bool := p.bytes.isEmpty

/-- Whether a path starts at the root of the file system. -/
def isAbsolute (p : Path) : Bool := p.bytes.head? == some slash

/-- Whether a path holds a NUL byte, which no name may hold. -/
def hasNul (p : Path) : Bool := p.bytes.contains 0

/-! ## Components -/

/-- The stretches between slashes, empty ones included. -/
def rawSegments (p : Path) : List Bytes := segments slash p.bytes

/-- The step that a segment stands for, anywhere but at the start of a relative path. -/
def stepOf (s : Bytes) : Option Component :=
  if s = [] ∨ s = dotName then none
  else if s = dotDotName then some .up
  else some (.name s)

/-- The steps of a path. A single dot counts only at the start of a relative path. -/
def components (p : Path) : List Component :=
  let start : List Component :=
    if p.isAbsolute then [.root]
    else if p.rawSegments.head? == some dotName then [.here]
    else []
  start ++ p.rawSegments.filterMap stepOf

/-- Whether the steps of `q` start with those of `p`. -/
def isWithin (q p : Path) : Bool := p.components.isPrefixOf q.components

/-- Whether two paths have the same steps. -/
def sameAs (p q : Path) : Bool := p.components == q.components

/-- The last step, if it is a name. -/
def fileName? (p : Path) : Option Name :=
  match p.components.getLast? with
  | some (.name n) => some n
  | _ => none

/-! ## Joining and cutting -/

/-- The path `q` as seen from `p`. An absolute `q` stands for itself. -/
def join (p q : Path) : Path :=
  if q.isAbsolute then q
  else if p.bytes = [] ∨ p.bytes.getLast? = some slash then ⟨p.bytes ++ q.bytes⟩
  else ⟨p.bytes ++ slash :: q.bytes⟩

/-- The entry called `n` in the directory `p`. -/
def push (p : Path) (n : Name) : Path := p.join ⟨n⟩

/-- Leave out the segments at the end that are no steps. The list is reversed, and `first` says whether
    its last element starts a relative path, where a single dot is a step. -/
def trimSegments (first : Bool) : List Bytes → List Bytes
  | [] => []
  | [s] => if s = [] ∨ (s = dotName ∧ !first) then [] else [s]
  | s :: t :: rest => if s = [] ∨ s = dotName then trimSegments first (t :: rest) else s :: t :: rest

/-- The path without its last step, in the spelling it had; none for the root and the empty path. -/
def parent? (p : Path) : Option Path :=
  let body := if p.isAbsolute then p.rawSegments.tail else p.rawSegments
  let lead : Bytes := if p.isAbsolute then [slash] else []
  match trimSegments (!p.isAbsolute) body.reverse with
  | [] => none
  | _ :: before =>
    some ⟨lead ++ joinSegments slash (trimSegments (!p.isAbsolute) before).reverse⟩

end Path

/-! ## Real places -/

/-- A place in the file system without any indirection: the names from the root downwards. -/
abbrev RealPath := List Name

/-- The path that spells a real place. -/
def RealPath.toPath (r : RealPath) : Path := ⟨slash :: joinSegments slash r⟩

end TreeImage
