import TreeImage.Bytes.Basic

set_option autoImplicit false

/-! # Hexadecimal form of byte strings

A byte is written as two digits, high half first, in lower case. Reading takes digits of either
letter case and says which character is the first that is no digit. -/

namespace TreeImage

namespace Hex

/-! ## Digits -/

/-- The digit of a half byte. -/
def digit (n : Nat) : Char := Char.ofNat (if n < 10 then 48 + n else 87 + n)

/-- The half byte that the ASCII digit `b` stands for, in either letter case. -/
def digitValue? (b : UInt8) : Option UInt8 :=
  if 48 ≤ b ∧ b ≤ 57 then some (b - 48)
  else if 97 ≤ b ∧ b ≤ 102 then some (b - 87)
  else if 65 ≤ b ∧ b ≤ 70 then some (b - 55)
  else none

/-! ## Writing -/

/-- The two digits of a byte. -/
def encodeByte (b : UInt8) : List Char := [digit (b.toNat / 16), digit (b.toNat % 16)]

/-- All bytes, two lower-case digits each. -/
def encode (bs : Bytes) : String := String.ofList (bs.flatMap encodeByte)

theorem length_encode (bs : Bytes) : (encode bs).length = 2 * bs.length := by
  rw [encode, String.length_ofList]
  induction bs with
  | nil => rfl
  | cons b bs ih => simp [encodeByte] at ih ⊢; omega

/-- A number in at least `width` digits after the mark `0x`. -/
def number (width n : Nat) : String :=
  let digits := Nat.toDigits 16 n
  "0x" ++ String.ofList (List.replicate (width - digits.length) '0' ++ digits)

/-! ## Reading -/

/-- Why a text is not the hexadecimal form of a byte string of the wanted length. -/
inductive DecodeError
  | oddLength
  | wrongLength
  | badDigit (byte : UInt8) (position : Nat)
  deriving DecidableEq, Repr

/-- Read digits in pairs; `position` is that of the next digit in the whole text. -/
def decodeFrom (position : Nat) : Bytes → Except DecodeError Bytes
  | [] => .ok []
  | [_] => .error .oddLength
  | high :: low :: rest =>
    match digitValue? high, digitValue? low with
    | none, _ => .error (.badDigit high position)
    | some _, none => .error (.badDigit low (position + 1))
    | some h, some l =>
      match decodeFrom (position + 2) rest with
      | .error e => .error e
      | .ok bs => .ok ((h * 16 + l) :: bs)

/-- Read `size` bytes. The length is checked before any digit. -/
def decode (size : Nat) (digits : Bytes) : Except DecodeError Bytes :=
  if digits.length % 2 = 1 then .error .oddLength
  else if digits.length ≠ 2 * size then .error .wrongLength
  else decodeFrom 0 digits

theorem length_decodeFrom {position : Nat} {digits bs : Bytes}
    (h : decodeFrom position digits = .ok bs) : digits.length = 2 * bs.length := by
  fun_induction decodeFrom position digits generalizing bs with
  | case1 => cases h; rfl
  | case2 => cases h
  | case3 => cases h
  | case4 => cases h
  | case5 => cases h
  | case6 position high low rest hi hl lo ll bs' hbs ih =>
    cases h
    have := ih hbs
    simp only [List.length_cons]
    omega

theorem length_decode {size : Nat} {digits bs : Bytes} (h : decode size digits = .ok bs) :
    bs.length = size := by
  unfold decode at h
  split at h
  · cases h
  · split at h
    · cases h
    · next hl =>
      have := length_decodeFrom h
      omega

end Hex

end TreeImage
