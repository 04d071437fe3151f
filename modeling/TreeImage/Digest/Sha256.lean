import TreeImage.Bytes.Basic

set_option autoImplicit false

/-! # SHA-256

The hash takes a message one byte at a time. A `Hasher` holds the chaining state of the complete
64-byte blocks and the bytes of the block that is being filled; `update` is a left fold of `absorb`, so
hashing in pieces is hashing the whole (`update_append`). `finish` absorbs the padding and reads the
state out. -/

namespace TreeImage

namespace Sha256

/-! ## One block -/

/-- The eight words of chaining state. -/
structure State where
  a : UInt32
  b : UInt32
  c : UInt32
  d : UInt32
  e : UInt32
  f : UInt32
  g : UInt32
  h : UInt32
  deriving DecidableEq, Repr

/-- The state before any block. -/
def State.initial : State where
  a := 0x6a09e667
  b := 0xbb67ae85
  c := 0x3c6ef372
  d := 0xa54ff53a
  e := 0x510e527f
  f := 0x9b05688c
  g := 0x1f83d9ab
  h := 0x5be0cd19

/-- Word-wise sum of two states. -/
def State.add (s t : State) : State where
  a := s.a + t.a
  b := s.b + t.b
  c := s.c + t.c
  d := s.d + t.d
  e := s.e + t.e
  f := s.f + t.f
  g := s.g + t.g
  h := s.h + t.h

/-- The constants of the sixty-four rounds. -/
def roundConstants : List UInt32 :=
  [0x428a2f98, 0x71374491, 0xb5c0fbcf, 0xe9b5dba5, 0x3956c25b, 0x59f111f1, 0x923f82a4, 0xab1c5ed5,
   0xd807aa98, 0x12835b01, 0x243185be, 0x550c7dc3, 0x72be5d74, 0x80deb1fe, 0x9bdc06a7, 0xc19bf174,
   0xe49b69c1, 0xefbe4786, 0x0fc19dc6, 0x240ca1cc, 0x2de92c6f, 0x4a7484aa, 0x5cb0a9dc, 0x76f988da,
   0x983e5152, 0xa831c66d, 0xb00327c8, 0xbf597fc7, 0xc6e00bf3, 0xd5a79147, 0x06ca6351, 0x14292967,
   0x27b70a85, 0x2e1b2138, 0x4d2c6dfc, 0x53380d13, 0x650a7354, 0x766a0abb, 0x81c2c92e, 0x92722c85,
   0xa2bfe8a1, 0xa81a664b, 0xc24b8b70, 0xc76c51a3, 0xd192e819, 0xd6990624, 0xf40e3585, 0x106aa070,
   0x19a4c116, 0x1e376c08, 0x2748774c, 0x34b0bcb5, 0x391c0cb3, 0x4ed8aa4a, 0x5b9cca4f, 0x682e6ff3,
   0x748f82ee, 0x78a5636f, 0x84c87814, 0x8cc70208, 0x90befffa, 0xa4506ceb, 0xbef9a3f7, 0xc67178f2]

/-- Rotate a word right by `n` places. -/
def rotateRight (x n : UInt32) : UInt32 := (x >>> n) ||| (x <<< (32 - n))

/-- The big-endian word of four bytes. -/
def wordOf (b₀ b₁ b₂ b₃ : UInt8) : UInt32 :=
  (b₀.toUInt32 <<< 24) ||| (b₁.toUInt32 <<< 16) ||| (b₂.toUInt32 <<< 8) ||| b₃.toUInt32

/-- The four bytes of a word, most significant first. -/
def bytesOf (w : UInt32) : Bytes :=
  [(w >>> 24).toUInt8, (w >>> 16).toUInt8, (w >>> 8).toUInt8, w.toUInt8]

/-- The words of a byte string, four bytes each. -/
def words : Bytes → List UInt32
  | b₀ :: b₁ :: b₂ :: b₃ :: rest => wordOf b₀ b₁ b₂ b₃ :: words rest
  | _ => []

/-- The message schedule grows by the word made of the last sixteen, `recent`, newest first. -/
def nextWord (recent : List UInt32) : UInt32 :=
  let two := recent.getD 1 0
  let seven := recent.getD 6 0
  let fifteen := recent.getD 14 0
  let sixteen := recent.getD 15 0
  let small := rotateRight fifteen 7 ^^^ rotateRight fifteen 18 ^^^ (fifteen >>> 3)
  let large := rotateRight two 17 ^^^ rotateRight two 19 ^^^ (two >>> 10)
  sixteen + small + seven + large

/-- The schedule of a block, newest word first, after `n` words were added to it. -/
def extend : Nat → List UInt32 → List UInt32
  | 0, recent => recent
  | n + 1, recent => extend n (nextWord recent :: recent)

/-- One round with round constant `k` and schedule word `w`. -/
def round (s : State) (k w : UInt32) : State :=
  let sum₁ := rotateRight s.e 6 ^^^ rotateRight s.e 11 ^^^ rotateRight s.e 25
  let choice := (s.e &&& s.f) ^^^ ((~~~ s.e) &&& s.g)
  let t₁ := s.h + sum₁ + choice + k + w
  let sum₀ := rotateRight s.a 2 ^^^ rotateRight s.a 13 ^^^ rotateRight s.a 22
  let majority := (s.a &&& s.b) ^^^ (s.a &&& s.c) ^^^ (s.b &&& s.c)
  ⟨t₁ + (sum₀ + majority), s.a, s.b, s.c, s.d + t₁, s.e, s.f, s.g⟩

/-- Run the rounds over the constants and the schedule side by side. -/
def rounds : State → List UInt32 → List UInt32 → State
  | s, k :: ks, w :: ws => rounds (round s k w) ks ws
  | s, _, _ => s

/-- Take in one block of sixty-four bytes. -/
def compress (s : State) (block : Bytes) : State :=
  s.add (rounds s roundConstants (extend 48 (words block).reverse).reverse)

/-! ## Streaming -/

/-- A hash in progress: the state of the complete blocks, the bytes of the current one (newest first)
    and how many bytes went in. -/
structure Hasher where
  state : State
  pending : Bytes
  count : Nat
  deriving DecidableEq, Repr

/-- A hash of nothing yet. -/
def Hasher.start : Hasher := ⟨.initial, [], 0⟩

/-- Take in one byte. -/
def Hasher.absorb (h : Hasher) (b : UInt8) : Hasher :=
  if (h.count + 1) % 64 = 0 then
    ⟨compress h.state (b :: h.pending).reverse, [], h.count + 1⟩
  else
    ⟨h.state, b :: h.pending, h.count + 1⟩

/-- Take in a byte string. -/
def Hasher.update (h : Hasher) (bs : Bytes) : Hasher := bs.foldl Hasher.absorb h

@[simp] theorem Hasher.update_nil (h : Hasher) : h.update [] = h := rfl

theorem Hasher.update_append (h : Hasher) (as bs : Bytes) :
    h.update (as ++ bs) = (h.update as).update bs := List.foldl_append

theorem Hasher.update_flatten (h : Hasher) (pieces : List Bytes) :
    pieces.foldl Hasher.update h = h.update pieces.flatten := by
  induction pieces generalizing h with
  | nil => rfl
  | cons p ps ih => simp [ih, Hasher.update_append]

/-- The eight bytes of a number, most significant first, modulo 2⁶⁴. -/
def lengthBytes (n : Nat) : Bytes :=
  [n >>> 56, n >>> 48, n >>> 40, n >>> 32, n >>> 24, n >>> 16, n >>> 8, n].map (·.toUInt8)

/-- What follows a message of `count` bytes: a one bit, zeros up to the last eight bytes of a block,
    and the length in bits. -/
def padding (count : Nat) : Bytes :=
  0x80 :: (List.replicate ((119 - count % 64) % 64) 0 ++ lengthBytes (8 * count))

/-- The bytes of a state. -/
def State.toBytes (s : State) : Bytes :=
  [s.a, s.b, s.c, s.d, s.e, s.f, s.g, s.h].flatMap bytesOf

theorem State.length_toBytes (s : State) : s.toBytes.length = 32 := rfl

/-- The hash of everything taken in. -/
def Hasher.finish (h : Hasher) : Bytes := (h.update (padding h.count)).state.toBytes

theorem Hasher.length_finish (h : Hasher) : h.finish.length = 32 := State.length_toBytes _

/-- The hash of a byte string. -/
def hash (bs : Bytes) : Bytes := (Hasher.start.update bs).finish

end Sha256

end TreeImage
