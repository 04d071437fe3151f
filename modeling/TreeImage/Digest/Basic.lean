import TreeImage.Bytes.Hex
import TreeImage.Digest.Sha256
import TreeImage.Text.Quoted

set_option autoImplicit false

/-! # Content digests

A `Digest` names the content of a file by its SHA-256. It is written as sixty-four lower-case digits
and read back from them in either letter case. -/

namespace TreeImage

/-- A content digest: exactly thirty-two bytes. -/
structure Digest where
  bytes : Bytes
  length_bytes : bytes.length = 32

namespace Digest

theorem ext_bytes {a b : Digest} (h : a.bytes = b.bytes) : a = b := by
  cases a; cases b; cases h; rfl

/-- Digests are compared by their bytes, without a cast between digests that evaluation would stop at. -/
instance : DecidableEq Digest := fun _ _ => decidable_of_iff _ ⟨ext_bytes, congrArg bytes⟩

/-- The number of bytes of a digest. -/
def size : Nat := 32

/-- The digest that stands in entries without content. -/
def zero : Digest := ⟨List.replicate 32 0, rfl⟩

instance : Inhabited Digest := ⟨zero⟩

/-- Whether this is the digest of entries without content. -/
def isZero (d : Digest) : Bool := d.bytes == List.replicate 32 0

theorem isZero_iff {d : Digest} : d.isZero = true ↔ d = zero := by
  constructor
  · intro h
    exact ext_bytes (beq_iff_eq.1 h)
  · rintro rfl
    rfl

/-- The digest of a byte string. -/
def of (bs : Bytes) : Digest := ⟨Sha256.hash bs, Sha256.Hasher.length_finish _⟩

/-- The digest of everything a hasher took in. -/
def ofHasher (h : Sha256.Hasher) : Digest := ⟨h.finish, h.length_finish⟩

theorem ofHasher_update (bs : Bytes) : ofHasher (Sha256.Hasher.start.update bs) = of bs := rfl

/-- Digests are ordered by their bytes. -/
protected def compare (a b : Digest) : Ordering := compare a.bytes b.bytes

instance : Ord Digest := ⟨Digest.compare⟩

/-- The written form. -/
def toHex (d : Digest) : String := Hex.encode d.bytes

instance : ToString Digest := ⟨toHex⟩

end Digest

/-! ## Checking content -/

/-- Why a digest cannot be read, or content does not have the digest that was expected of it. -/
inductive VerificationError
  | mismatch (expected actual : Digest)
  | invalidLength (actual : Nat)
  | invalidHex (cause : Hex.DecodeError)
  | io (message : String)
  deriving DecidableEq

/-- The wording of a text that is no hexadecimal form. -/
def Hex.DecodeError.message : Hex.DecodeError → String
  | .oddLength => "Odd number of digits"
  | .wrongLength => "Invalid string length"
  | .badDigit byte position =>
    s!"Invalid character {Quoted.character (Char.ofNat byte.toNat)} at position {position}"

/-- The wording of a failed check. -/
def VerificationError.message : VerificationError → String
  | .mismatch expected actual => s!"checksum mismatch: expected {expected}, got {actual}"
  | .invalidLength actual => s!"invalid digest: expected {Digest.size} bytes, got {actual}"
  | .invalidHex cause => s!"invalid digest hex: {cause.message}"
  | .io message => message

namespace Digest

/-- The digest with these bytes. -/
def ofBytes (bs : Bytes) : Except VerificationError Digest :=
  if h : bs.length = 32 then .ok ⟨bs, h⟩ else .error (.invalidLength bs.length)

/-- Read the written form. -/
def parse (s : String) : Except VerificationError Digest :=
  match h : Hex.decode size (utf8 s) with
  | .error e => .error (.invalidHex e)
  | .ok bs => .ok ⟨bs, Hex.length_decode h⟩

/-- Accept `actual` if it is the digest that was expected. -/
def confirm (expected actual : Digest) : Except VerificationError Digest :=
  if actual = expected then .ok actual else .error (.mismatch expected actual)

/-- Check that `bs` has the expected digest. -/
def verify (bs : Bytes) (expected : Digest) : Except VerificationError Unit :=
  (confirm expected (of bs)).map fun _ => ()

end Digest

end TreeImage
