import TreeImage.Bytes.Basic

set_option autoImplicit false

/-! # Little-endian numbers

A number of fixed width is written least significant byte first. Reading undoes writing for every number
that fits the width (`ofLittleEndian_littleEndian`), and writing undoes reading
(`littleEndian_ofLittleEndian`). -/

namespace TreeImage

/-- The lowest `width` bytes of `n`, least significant first. -/
def littleEndian : Nat → Nat → Bytes
  | 0, _ => []
  | width + 1, n => n.toUInt8 :: littleEndian width (n / 256)

/-- The number that `bs` spells, least significant byte first. -/
def ofLittleEndian : Bytes → Nat
  | [] => 0
  | b :: bs => b.toNat + 256 * ofLittleEndian bs

@[simp] theorem length_littleEndian (width n : Nat) : (littleEndian width n).length = width := by
  induction width generalizing n with
  | zero => rfl
  | succ width ih => simp [littleEndian, ih]

/-- How many numbers `width` bytes can spell. -/
def byteCapacity : Nat → Nat
  | 0 => 1
  | width + 1 => 256 * byteCapacity width

theorem ofLittleEndian_lt (bs : Bytes) : ofLittleEndian bs < byteCapacity bs.length := by
  induction bs with
  | nil => exact Nat.one_pos
  | cons b bs ih =>
    have := b.toNat_lt
    simp only [ofLittleEndian, List.length_cons, byteCapacity]
    omega

theorem ofLittleEndian_littleEndian {width n : Nat} (h : n < byteCapacity width) :
    ofLittleEndian (littleEndian width n) = n := by
  induction width generalizing n with
  | zero =>
    simp only [byteCapacity] at h
    simp only [littleEndian, ofLittleEndian]
    omega
  | succ width ih =>
    simp only [byteCapacity] at h
    have hn : n / 256 < byteCapacity width := by omega
    simp only [littleEndian, ofLittleEndian, ih hn, Nat.toUInt8_eq, UInt8.toNat_ofNat']
    omega

theorem littleEndian_ofLittleEndian (bs : Bytes) :
    littleEndian bs.length (ofLittleEndian bs) = bs := by
  induction bs with
  | nil => rfl
  | cons b bs ih =>
    have hb := b.toNat_lt
    have hq : (b.toNat + 256 * ofLittleEndian bs) / 256 = ofLittleEndian bs := by omega
    have hr : (b.toNat + 256 * ofLittleEndian bs).toUInt8 = b := by
      apply UInt8.toNat_inj.1
      simp only [Nat.toUInt8_eq, UInt8.toNat_ofNat']
      omega
    simp only [List.length_cons, littleEndian, ofLittleEndian, hq, hr, ih]

end TreeImage
