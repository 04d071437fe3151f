import TreeImage.Bytes.Basic

set_option autoImplicit false

/-! # Text out of arbitrary bytes

File system names are bytes and need not be UTF-8. `chunks` cuts a byte string into the longest
well-formed stretches and, between them, the **broken** pieces: a broken piece is the longest start of
some character's UTF-8 form that the bytes do not complete, or a single byte that starts none. `lossy`
shows every broken piece as one replacement character. -/

namespace TreeImage

/-! ## Well-formed characters -/

/-- How many bytes a character takes whose first byte is `b`, and in which range its second byte
    lies; `none` if no character starts with `b`. -/
def leadByte (b : UInt8) : Option (Nat × UInt8 × UInt8) :=
  if b < 0x80 then some (1, 0x80, 0xBF)
  else if 0xC2 ≤ b ∧ b ≤ 0xDF then some (2, 0x80, 0xBF)
  else if b = 0xE0 then some (3, 0xA0, 0xBF)
  else if b = 0xED then some (3, 0x80, 0x9F)
  else if 0xE1 ≤ b ∧ b ≤ 0xEF then some (3, 0x80, 0xBF)
  else if b = 0xF0 then some (4, 0x90, 0xBF)
  else if 0xF1 ≤ b ∧ b ≤ 0xF3 then some (4, 0x80, 0xBF)
  else if b = 0xF4 then some (4, 0x80, 0x8F)
  else none

/-- Whether `b` can stand at a place of a character other than the first two. -/
def isTrailByte (b : UInt8) : Bool := 0x80 ≤ b && b ≤ 0xBF

/-- How many of the `n` bytes still wanted by a character stand at the start of `bs`. -/
def trailLength : Nat → Bytes → Nat
  | n + 1, b :: bs => if isTrailByte b then trailLength n bs + 1 else 0
  | _, _ => 0

/-- A character of UTF-8 that `b :: bs` starts with: its length, and whether it is complete. -/
def scanCharacter (b : UInt8) (bs : Bytes) : Nat × Bool :=
  match leadByte b with
  | none => (1, false)
  | some (1, _, _) => (1, true)
  | some (n, low, high) =>
    match bs with
    | second :: rest =>
      if low ≤ second ∧ second ≤ high then
        let length := 2 + trailLength (n - 2) rest
        (length, length == n)
      else (1, false)
    | [] => (1, false)

/-! ## Cutting and showing -/

/-- A stretch of a byte string: the character it spells, or a broken piece. -/
inductive Chunk
  | character (c : Char)
  | broken (bytes : Bytes)
  deriving Repr

/-- The next stretch of `b :: bs`. -/
def Chunk.first (b : UInt8) (bs : Bytes) : Chunk :=
  let (length, complete) := scanCharacter b bs
  let piece := (b :: bs).take length
  match complete, text? piece with
  | true, some s => match s.toList with
    | [c] => .character c
    | _ => .broken piece
  | _, _ => .broken piece

/-- Cut a byte string of at most `fuel` bytes. -/
def chunksUpTo : Nat → Bytes → List Chunk
  | fuel + 1, b :: bs =>
    Chunk.first b bs :: chunksUpTo fuel ((b :: bs).drop (scanCharacter b bs).1)
  | _, _ => []

/-- The stretches of a byte string, in order. -/
def chunks (bs : Bytes) : List Chunk := chunksUpTo bs.length bs

/-- The text of a byte string, with one replacement character for each broken piece. -/
def lossy (bs : Bytes) : String :=
  match text? bs with
  | some s => s
  | none => String.ofList ((chunks bs).map fun
    | .character c => c
    | .broken _ => '\uFFFD')

@[simp] theorem lossy_utf8 (s : String) : lossy (utf8 s) = s := by simp [lossy]

end TreeImage
