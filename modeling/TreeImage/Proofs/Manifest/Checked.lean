import TreeImage.Proofs.Image.RoundTrip
import TreeImage.Proofs.Manifest.WellFormed

set_option autoImplicit false

/-! # Manifests that passed their checks

In a manifest that was read every path comes once, and the parent of an entry is a directory that comes
before it. -/

namespace TreeImage

namespace Manifest

variable {blobLength : Nat} {m : Manifest}

theorem validate_eq_ok_iff : m.validate blobLength = .ok () ↔ checkEntries blobLength [] m.entries = .ok () ∧
    checkDisjoint m.byOffset = .ok () ∧ checkParents [] m.entries = .ok () := by
  constructor
  · intro h
    rw [validate] at h
    obtain ⟨⟨⟩, hentries, h⟩ := except_bind_eq_ok.1 h
    obtain ⟨⟨⟩, hdisjoint, h⟩ := except_bind_eq_ok.1 h
    exact ⟨hentries, hdisjoint, h⟩
  · rintro ⟨hentries, hdisjoint, hparents⟩
    exact except_bind_eq_ok.2 ⟨(), hentries, except_bind_eq_ok.2 ⟨(), hdisjoint, hparents⟩⟩

theorem validate_eq_ok (h : m.validate blobLength = .ok ()) :
    checkEntries blobLength [] m.entries = .ok () ∧ checkParents [] m.entries = .ok () :=
  (validate_eq_ok_iff.1 h).imp_right And.right

end Manifest

/-- The manifest of an image that was read passed its checks, and is not too long. -/
theorem Image.validate_of_parse {bytes : Bytes} {image : Image} (h : Image.parse bytes = .ok image) :
    (∃ blobLength, image.manifest.validate blobLength = .ok ()) ∧ image.manifest.size < byteCapacity 4 := by
  rw [Image.parse] at h
  cases hdecode : decode bytes with
  | error err =>
    rw [hdecode] at h
    cases h
  | ok d =>
    rw [hdecode] at h
    cases h
    obtain ⟨table, blob, -, hsize, -, hvalid, -⟩ := decode_eq_ok_iff.1 hdecode
    exact ⟨⟨blob.length, hvalid⟩, hsize⟩

/-- Every path comes once. -/
theorem Image.nodup_of_parse {bytes : Bytes} {image : Image} (h : Image.parse bytes = .ok image) :
    (image.manifest.entries.map (·.path)).Nodup := by
  obtain ⟨⟨blobLength, hvalid⟩, -⟩ := validate_of_parse h
  exact (Manifest.checkEntries_eq_ok_iff.1 (Manifest.validate_eq_ok hvalid).1).2.2.1

/-- A file of an image has as much content as its entry says. -/
theorem Image.length_content {bytes : Bytes} {image : Image} {e : Entry} (h : Image.parse bytes = .ok image)
    (he : e ∈ image.manifest.entries) (hfile : e.isFile = true) : (image.content e).length = e.size.toNat := by
  rw [Image.parse] at h
  cases hdecode : decode bytes with
  | error err =>
    rw [hdecode] at h
    cases h
  | ok d =>
    rw [hdecode] at h
    cases h
    obtain ⟨table, blob, -, -, hlength, hvalid, hbytes, hd⟩ := decode_eq_ok_iff.1 hdecode
    have hblob : Image.blob ⟨bytes, d.manifest, d.blobStart, d.blobLength⟩ = blob := by
      rw [Image.blob, hd, hbytes]
      exact congrArg (·.getD []) (slice?_imageAround d.manifest table blob)
    have hfits : e.start + e.size.toNat ≤ blob.length :=
      ((Manifest.checkEntries_eq_ok_iff.1 (Manifest.validate_eq_ok hvalid).1).2.1 e he).2 hfile
    have hstop : e.stopWord = e.start + e.size.toNat := by
      have hcapacity : byteCapacity 8 = UInt64.size := by decide
      rw [Entry.stopWord, Entry.stop, ← Entry.start]
      omega
    rw [Image.content, hblob, hstop, slice?, if_pos ⟨Nat.le_add_right _ _, hfits⟩, Option.getD_some, List.length_take,
      List.length_drop]
    omega

end TreeImage
