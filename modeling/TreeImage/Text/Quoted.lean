import TreeImage.Bytes.Hex
import TreeImage.Text.Lossy
import TreeImage.Text.Shapeless

set_option autoImplicit false

/-! # Quoted characters and paths

Messages quote a character in apostrophes and a path in quotation marks. Inside, the backslash and the
mark itself are written with a backslash before them, the common control characters by a letter, other
shapeless characters by their number, and bytes that are not UTF-8 by two digits. -/

namespace TreeImage

namespace Quoted

/-- The number of a character in lower-case hexadecimal, without leading zeros. -/
def codePoint (c : Char) : List Char := Nat.toDigits 16 c.toNat

/-- How `c` is written between two marks. -/
def escape (mark c : Char) : List Char :=
  if c = '\x00' then ['\\', '0']
  else if c = '\t' then ['\\', 't']
  else if c = '\n' then ['\\', 'n']
  else if c = '\r' then ['\\', 'r']
  else if c = '\\' ∨ c = mark then ['\\', c]
  else if isShapeless c then ['\\', 'u', '\x7b'] ++ codePoint c ++ ['\x7d']
  else [c]

/-- A byte outside any character. -/
def escapeByte (b : UInt8) : List Char :=
  ['\\', 'x'] ++ (Hex.encodeByte b).map Char.toUpper

/-- A character in apostrophes. -/
def character (c : Char) : String := String.ofList ('\'' :: escape '\'' c ++ ['\''])

/-- A byte string in quotation marks. -/
def path (bs : Bytes) : String :=
  String.ofList ('"' :: ((chunks bs).flatMap fun
    | .character c => escape '"' c
    | .broken piece => piece.flatMap escapeByte) ++ ['"'])

end Quoted

end TreeImage
