import Mathlib
import TreeImage.Image.Basic
import TreeImage.Proofs.Image.Records

set_option autoImplicit false

/-! # Writing and reading images

`decode_eq_ok_iff` says which byte strings are images and what is read from them: the header, a table of
the entries, the length of the blob and the blob, with a manifest that passes its checks. Reading undoes
writing (`decode_encode`), and writing undoes reading up to the mode bytes of entries without a mode
(`encode_decode`). -/

namespace TreeImage

theorem length_imageHeader (count : Nat) : (imageHeader count).length = 16 := by
  simp [imageHeader, magic]

/-! ## The images that are read -/

/-- An image laid out around `table`, which need not be the table that is written for the entries. -/
def imageAround (m : Manifest) (table blob : Bytes) : Bytes :=
  imageHeader m.size ++ (table ++ (littleEndian 8 blob.length ++ blob))

/-- What is read from an image laid out around a table of length `tableLength`. -/
def decodedAround (m : Manifest) (tableLength blobLength : Nat) : Decoded :=
  ⟨m, 16 + tableLength + 8, blobLength⟩

/-- A byte string that was read is an image around some table of its manifest. -/
theorem eq_imageAround_of_decode {bytes : Bytes} {d : Decoded} (h : decode bytes = .ok d) :
    ∃ table blob, WrittenTable d.manifest.entries table ∧ d.manifest.size < byteCapacity 4 ∧
      blob.length < byteCapacity 8 ∧ d.manifest.validate blob.length = .ok () ∧
      bytes = imageAround d.manifest table blob ∧
      d = decodedAround d.manifest table.length blob.length := by
  -- first the checks, in the order in which they are made; then what every field took
  unfold decode at h
  simp only [except_bind_eq_ok, Prod.exists] at h
  obtain ⟨found, c₁, hfound, h⟩ := h
  split at h
  · exact nomatch h
  next hmagic =>
  simp only [except_bind_eq_ok, Prod.exists] at h
  obtain ⟨version, c₂, hversion, h⟩ := h
  split at h
  · exact nomatch h
  next hsupported =>
  simp only [except_bind_eq_ok, Prod.exists] at h
  obtain ⟨reserved, c₃, hreserved, h⟩ := h
  split at h
  · exact nomatch h
  next hzero =>
  simp only [except_bind_eq_ok, Prod.exists] at h
  obtain ⟨count, c₄, hcount, h⟩ := h
  split at h
  · exact nomatch h
  simp only [except_bind_eq_ok, Prod.exists] at h
  obtain ⟨entries, c₅, hentries, blobLength, c₆, hblobLength, blob, c₇, hblob, h⟩ := h
  split at h
  · exact nomatch h
  next hend =>
  simp only [except_bind_eq_ok] at h
  obtain ⟨_, hvalid, h⟩ := h
  cases h
  obtain ⟨hr₁, -, hp₁⟩ := Cursor.take_eq_ok_iff.1 hfound
  obtain ⟨hr₂, -, hp₂⟩ := Cursor.number_eq_ok_iff.1 hversion
  obtain ⟨hr₃, -, hp₃⟩ := Cursor.number_eq_ok_iff.1 hreserved
  obtain ⟨hr₄, hcountBound, hp₄⟩ := Cursor.number_eq_ok_iff.1 hcount
  obtain ⟨hsize, table, htable, hr₅, hp₅⟩ := Entry.readAll_eq_ok_iff.1 hentries
  obtain ⟨hr₆, hblobBound, hp₆⟩ := Cursor.number_eq_ok_iff.1 hblobLength
  obtain ⟨hr₇, hblobSize, hp₇⟩ := Cursor.take_eq_ok_iff.1 hblob
  obtain rfl := Decidable.not_not.1 hmagic
  obtain rfl := Decidable.not_not.1 hsupported
  obtain rfl := Decidable.not_not.1 hzero
  have hr₈ : c₇.rest = [] := List.length_eq_zero_iff.1 (Decidable.not_not.1 hend)
  subst hsize hblobSize
  refine ⟨table, blob, htable, hcountBound, hblobBound, hvalid, ?_, ?_⟩
  · simp only at hr₁
    simp only [imageAround, imageHeader, Manifest.size, hr₁, hr₂, hr₃, hr₄, hr₅, hr₆, hr₇, hr₈,
      List.append_assoc, List.append_nil]
  · have hstart : c₆.position = 16 + table.length + 8 := by
      simp only [magic, List.length_cons, List.length_nil] at hp₁
      omega
    rw [decodedAround, hstart]

/-- An image around a table of a checked manifest is read. -/
theorem decode_imageAround {m : Manifest} {table blob : Bytes} (htable : WrittenTable m.entries table)
    (hcount : m.size < byteCapacity 4) (hblob : blob.length < byteCapacity 8)
    (hvalid : m.validate blob.length = .ok ()) :
    decode (imageAround m table blob) = .ok (decodedAround m table.length blob.length) := by
  have hfits : ¬ (table ++ (littleEndian 8 blob.length ++ blob)).length < m.size * recordFixedLength := by
    have := htable.le_length
    rw [List.length_append, Manifest.size]
    omega
  have hread : ∀ position rest, Entry.readAll 0 m.size ⟨table ++ rest, position⟩ =
      .ok (m.entries, ⟨rest, position + table.length⟩) := fun position rest =>
    Entry.readAll_eq_ok_iff.2 ⟨rfl, table, htable, rfl, rfl⟩
  have hblobTake : ∀ position, Cursor.take ⟨blob, position⟩ blob.length .blob =
      .ok (blob, ⟨[], position + blob.length⟩) := fun position =>
    Cursor.take_eq_ok_iff.2 ⟨(List.append_nil _).symm, rfl, rfl⟩
  have hversion : formatVersion < byteCapacity 2 := by decide
  have hreserved : 0 < byteCapacity 2 := by decide
  unfold decode imageAround imageHeader
  simp only [List.append_assoc, bind, Except.bind, Cursor.take_append, Cursor.number_append hversion,
    Cursor.number_append hreserved, Cursor.number_append hcount, Cursor.number_append hblob, hread,
    hblobTake, if_neg hfits, ne_eq, not_true_eq_false, if_false, List.length_nil, hvalid]
  rfl

theorem decode_eq_ok_iff {bytes : Bytes} {d : Decoded} :
    decode bytes = .ok d ↔
      ∃ table blob, WrittenTable d.manifest.entries table ∧ d.manifest.size < byteCapacity 4 ∧
        blob.length < byteCapacity 8 ∧ d.manifest.validate blob.length = .ok () ∧
        bytes = imageAround d.manifest table blob ∧
        d = decodedAround d.manifest table.length blob.length := by
  constructor
  · exact eq_imageAround_of_decode
  · rintro ⟨table, blob, htable, hcount, hblob, hvalid, hbytes, hd⟩
    rw [hbytes, decode_imageAround htable hcount hblob hvalid, ← hd]

/-- The blob of an image is found where the reader says it is. -/
theorem slice?_imageAround (m : Manifest) (table blob : Bytes) :
    slice? (imageAround m table blob) (16 + table.length + 8) (16 + table.length + 8 + blob.length) =
      some blob := by
  have hsplit : imageAround m table blob =
      (imageHeader m.size ++ table ++ littleEndian 8 blob.length) ++ (blob ++ []) := by
    simp only [imageAround, List.append_assoc, List.append_nil]
  have hlength : (imageHeader m.size ++ table ++ littleEndian 8 blob.length).length =
      16 + table.length + 8 := by
    simp only [List.length_append, length_imageHeader, length_littleEndian]
  rw [hsplit, ← hlength, slice?_append]

/-! ## Written images -/

namespace Manifest

theorem layout_eq_imageAround (m : Manifest) (blob : Bytes) :
    m.layout blob = imageAround m (m.entries.flatMap Entry.encode) blob := by
  simp only [layout, imageAround, List.append_assoc]

theorem encode_eq_ok_iff {m : Manifest} {blob bytes : Bytes} :
    m.encode blob = .ok bytes ↔ m.validate blob.length = .ok () ∧
      (∀ e ∈ m.entries, (utf8 e.path).length ≤ maxPathLength) ∧ bytes = m.layout blob := by
  have hshort : m.entries.find? pathIsTooLong = none ↔
      ∀ e ∈ m.entries, (utf8 e.path).length ≤ maxPathLength := by
    simp [List.find?_eq_none, pathIsTooLong]
  unfold encode
  split
  · next e he => simp [he]
  · next he =>
    split
    · next e hfound =>
      have : ¬ ∀ e ∈ m.entries, (utf8 e.path).length ≤ maxPathLength := by
        rw [← hshort, hfound]
        simp
      simp [this]
    · next hnone => exact ⟨fun h => ⟨he, hshort.1 hnone, (Except.ok.inj h).symm⟩, fun h => by rw [h.2.2]⟩

end Manifest

/-- The image of a manifest and a blob, as it is read back. -/
def Image.written (m : Manifest) (blob : Bytes) : Image :=
  ⟨m.layout blob, m, 16 + (m.entries.flatMap Entry.encode).length + 8, blob.length⟩

theorem Image.parse_written {m : Manifest} {blob : Bytes} (hcount : m.size < 2 ^ 32)
    (hblob : blob.length < 2 ^ 64) (hvalid : m.validate blob.length = .ok ())
    (hshort : ∀ e ∈ m.entries, (utf8 e.path).length ≤ maxPathLength) :
    Image.parse (Image.written m blob).source = .ok (Image.written m blob) := by
  have hdecode := decode_imageAround (.flatMap_encode hshort) hcount hblob hvalid
  rw [← m.layout_eq_imageAround] at hdecode
  show (decode (m.layout blob)).map _ = _
  rw [hdecode]
  rfl

/-- **Reading undoes writing.** What was written is read back with the same manifest and the same blob,
    and an image can be written exactly if the manifest passes its checks and no path is too long. A blob
    in memory has a length of sixty-four bits. -/
theorem decode_encode (m : Manifest) (blob : Bytes) (hcount : m.size < 2 ^ 32)
    (hblob : blob.length < 2 ^ 64) :
    (∀ bytes, m.encode blob = .ok bytes →
      ∃ d, decode bytes = .ok d ∧ d.manifest = m ∧
        slice? bytes d.blobStart (d.blobStart + d.blobLength) = some blob) ∧
    ((∃ bytes, m.encode blob = .ok bytes) ↔
      m.validate blob.length = .ok () ∧ ∀ e ∈ m.entries, (utf8 e.path).length ≤ 65535) := by
  constructor
  · intro bytes hbytes
    obtain ⟨hvalid, hshort, rfl⟩ := Manifest.encode_eq_ok_iff.1 hbytes
    rw [m.layout_eq_imageAround]
    exact ⟨_, decode_imageAround (.flatMap_encode hshort) hcount hblob hvalid, rfl,
      slice?_imageAround _ _ _⟩
  · simp only [Manifest.encode_eq_ok_iff]
    exact ⟨fun ⟨_, hvalid, hshort, _⟩ => ⟨hvalid, hshort⟩,
      fun ⟨hvalid, hshort⟩ => ⟨_, hvalid, hshort, rfl⟩⟩

theorem decode_encode_directory_and_file :
    let m : Manifest := ⟨[.directory "d" (some 0), .file "d/f" 0 2 .zero none]⟩
    let blob : Bytes := [104, 105]
    (m.size < 2 ^ 32 ∧ blob.length < 2 ^ 64) ∧
      ∃ bytes d, m.encode blob = .ok bytes ∧ decode bytes = .ok d ∧ d.manifest = m ∧
        slice? bytes d.blobStart (d.blobStart + d.blobLength) = some blob := by
  intro m blob
  have hcount : m.size < 2 ^ 32 := by decide
  have hblob : blob.length < 2 ^ 64 := by decide
  have hvalid : m.validate blob.length = .ok () := by cbv
  have hshort : ∀ e ∈ m.entries, (utf8 e.path).length ≤ 65535 := by decide
  obtain ⟨hread, hwritten⟩ := decode_encode m blob hcount hblob
  obtain ⟨bytes, hbytes⟩ := hwritten.2 ⟨hvalid, hshort⟩
  obtain ⟨d, hd⟩ := hread bytes hbytes
  exact ⟨⟨hcount, hblob⟩, bytes, d, hbytes, hd⟩

/-! ## Idle bytes -/

/-- Which bytes of a record say nothing: those of the mode if none was recorded. -/
def Entry.idleBytes (e : Entry) : List Bool :=
  List.replicate (4 + (utf8 e.path).length) false ++ List.replicate 4 e.mode.isNone ++
    List.replicate 48 false

/-- Which bytes of an image say nothing. -/
def Manifest.idleBytes (m : Manifest) (blobLength : Nat) : List Bool :=
  List.replicate 16 false ++ (m.entries.flatMap Entry.idleBytes ++
    (List.replicate 8 false ++ List.replicate blobLength false))

/-- The bytes with zeros in all idle places. -/
def clearIdle (idle : List Bool) (bytes : Bytes) : Bytes :=
  List.zipWith (fun isIdle b => if isIdle then 0 else b) idle bytes

theorem clearIdle_append {idle idle' : List Bool} {bytes bytes' : Bytes}
    (h : idle.length = bytes.length) :
    clearIdle (idle ++ idle') (bytes ++ bytes') = clearIdle idle bytes ++ clearIdle idle' bytes' :=
  List.zipWith_append h

theorem clearIdle_replicate_false (bytes : Bytes) :
    clearIdle (List.replicate bytes.length false) bytes = bytes := by
  induction bytes with
  | nil => rfl
  | cons b bytes ih => simpa [clearIdle, List.replicate_succ] using ih

theorem clearIdle_replicate_true (bytes : Bytes) :
    clearIdle (List.replicate bytes.length true) bytes = List.replicate bytes.length 0 := by
  induction bytes with
  | nil => rfl
  | cons b bytes ih => simpa [clearIdle, List.replicate_succ] using ih

theorem getElem?_clearIdle {idle : List Bool} {bytes : Bytes} (h : idle.length = bytes.length)
    (i : Nat) :
    (clearIdle idle bytes)[i]? = if idle[i]? = some true then some 0 else bytes[i]? := by
  rw [clearIdle, List.getElem?_zipWith]
  by_cases hi : i < bytes.length
  · rw [List.getElem?_eq_getElem hi, List.getElem?_eq_getElem (h ▸ hi)]
    cases idle[i] <;> simp
  · rw [List.getElem?_eq_none (by omega), List.getElem?_eq_none (by omega)]
    simp

namespace Entry

theorem length_idleBytes (e : Entry) :
    e.idleBytes.length = recordFixedLength + (utf8 e.path).length := by
  simp only [idleBytes, List.length_append, List.length_replicate, recordFixedLength]
  omega

/-- Clearing the idle bytes of a record gives the record that is written. -/
theorem clearIdle_encodeWith (e : Entry) {field : Bytes} (h : e.FillsMode field) :
    clearIdle e.idleBytes (e.encodeWith field) = e.encode := by
  obtain ⟨hlength, hmode⟩ := h
  let head := littleEndian 2 (utf8 e.path).length ++ utf8 e.path ++ [e.kind.tag, e.flags]
  let tail := littleEndian 8 e.size.toNat ++ littleEndian 8 e.offset.toNat ++ e.digest.bytes
  have hsplit : ∀ field, e.encodeWith field = head ++ field ++ tail := fun field => by
    simp only [encodeWith, head, tail, List.append_assoc]
  have hhead : head.length = 4 + (utf8 e.path).length := by
    simp only [head, List.length_append, length_littleEndian, List.length_cons, List.length_nil]
    omega
  have htail : tail.length = 48 := by
    simp only [tail, List.length_append, length_littleEndian, e.digest.length_bytes]
  have hfield : clearIdle (List.replicate 4 e.mode.isNone) field = e.modeField := by
    rw [← hlength]
    cases hm : e.mode with
    | none =>
      rw [Option.isNone_none, clearIdle_replicate_true, hlength, modeField, hm]
      rfl
    | some mode =>
      rw [Option.isNone_some, clearIdle_replicate_false]
      exact hmode (by rw [hm]; rfl)
  rw [e.encode_eq_encodeWith, hsplit, hsplit, idleBytes, ← hhead, ← htail,
    clearIdle_append, clearIdle_append, clearIdle_replicate_false, clearIdle_replicate_false, hfield]
  · rw [List.length_replicate]
  · simp only [List.length_append, List.length_replicate, hlength]

end Entry

/-- Clearing the idle bytes of a table gives the table that is written. -/
theorem WrittenTable.clearIdle_eq {es : List Entry} {table : Bytes} (h : WrittenTable es table) :
    (es.flatMap Entry.idleBytes).length = table.length ∧
      clearIdle (es.flatMap Entry.idleBytes) table = es.flatMap Entry.encode := by
  induction h with
  | nil => exact ⟨rfl, rfl⟩
  | @cons e es field table hshort hfills _ ih =>
    have hlength : e.idleBytes.length = (e.encodeWith field).length := by
      rw [e.length_idleBytes, e.length_encodeWith hfills.1]
    rw [List.flatMap_cons, List.flatMap_cons, clearIdle_append hlength, e.clearIdle_encodeWith hfills,
      ih.2, List.length_append, List.length_append, hlength, ih.1]
    exact ⟨rfl, rfl⟩

/-- Clearing the idle bytes of an image gives the image that is written. -/
theorem clearIdle_imageAround {m : Manifest} {table : Bytes} (blob : Bytes)
    (htable : WrittenTable m.entries table) :
    (m.idleBytes blob.length).length = (imageAround m table blob).length ∧
      clearIdle (m.idleBytes blob.length) (imageAround m table blob) = m.layout blob := by
  obtain ⟨hlength, hclear⟩ := htable.clearIdle_eq
  have hheader := length_imageHeader m.size
  have hword := length_littleEndian 8 blob.length
  have hclearWord := clearIdle_replicate_false (littleEndian 8 blob.length)
  rw [hword] at hclearWord
  constructor
  · simp only [Manifest.idleBytes, imageAround, List.length_append, List.length_replicate, hlength,
      hheader, hword]
  · rw [Manifest.idleBytes, imageAround, m.layout_eq_imageAround, imageAround, ← hheader,
      clearIdle_append (List.length_replicate ..), clearIdle_replicate_false,
      clearIdle_append hlength, hclear, clearIdle_append (by rw [hword, List.length_replicate]),
      clearIdle_replicate_false, hclearWord]

/-- **Writing undoes reading.** The blob of an image that was read reaches to its end, the manifest passes
    its checks, and writing both again gives the image back with zeros in its idle bytes. So two images
    with the same manifest and the same blob differ at most in those. -/
theorem encode_decode {bytes : Bytes} {d : Decoded} (h : decode bytes = .ok d) :
    d.blobStart + d.blobLength = bytes.length ∧ d.manifest.validate d.blobLength = .ok () ∧
    ∃ blob written : Bytes, slice? bytes d.blobStart (d.blobStart + d.blobLength) = some blob ∧
      d.manifest.encode blob = .ok written ∧ written.length = bytes.length ∧
      (∀ i : Nat, written[i]? =
        if (d.manifest.idleBytes d.blobLength)[i]? = some true then some 0 else bytes[i]?) ∧
      ∀ (other : Bytes) (d' : Decoded), decode other = .ok d' → d'.manifest = d.manifest →
        slice? other d'.blobStart (d'.blobStart + d'.blobLength) = some blob →
        ∀ i : Nat, (d.manifest.idleBytes d.blobLength)[i]? ≠ some true → other[i]? = bytes[i]? := by
  obtain ⟨table, blob, htable, hcount, hblob, hvalid, rfl, hd⟩ := decode_eq_ok_iff.1 h
  obtain ⟨m, blobStart, blobLength⟩ := d
  cases hd
  have hcleared : ∀ {table : Bytes}, WrittenTable m.entries table → ∀ i : Nat, (m.layout blob)[i]? =
      if (m.idleBytes blob.length)[i]? = some true then some 0
      else (imageAround m table blob)[i]? := by
    intro table htable i
    obtain ⟨hlength, hclear⟩ := clearIdle_imageAround blob htable
    rw [← hclear, getElem?_clearIdle hlength]
  refine ⟨?_, hvalid, blob, m.layout blob, slice?_imageAround _ _ _,
    Manifest.encode_eq_ok_iff.2 ⟨hvalid, htable.short, rfl⟩, ?_, hcleared htable, ?_⟩
  · simp only [imageAround, List.length_append, length_imageHeader, length_littleEndian]
    omega
  · obtain ⟨hlength, hclear⟩ := clearIdle_imageAround blob htable
    rw [← hclear, clearIdle, List.length_zipWith, hlength, Nat.min_self]
  · intro other d' hother hm hslice i hi
    obtain ⟨table', blob', htable', -, -, -, rfl, hd'⟩ := decode_eq_ok_iff.1 hother
    obtain ⟨m', blobStart', blobLength'⟩ := d'
    cases hd'
    simp only at hm
    subst hm
    obtain rfl : blob' = blob := Option.some.inj ((slice?_imageAround _ _ _).symm.trans hslice)
    -- with their idle bytes cleared, both images are the one that is written
    have hleft := hcleared htable i
    have hright := hcleared htable' i
    rw [if_neg hi] at hleft hright
    exact hright.symm.trans hleft

theorem encode_decode_idle_mode :
    let bytes : Bytes :=
      magic ++ [1, 0, 0, 0, 1, 0, 0, 0] ++ [1, 0, 100, 0, 0, 1, 2, 3, 4] ++ List.replicate 56 0
    let m : Manifest := ⟨[.directory "d" none]⟩
    decode bytes = .ok ⟨m, 81, 0⟩ ∧
      ∃ written : Bytes, m.encode [] = .ok written ∧ written.length = bytes.length ∧
        ∀ i : Nat, written[i]? =
          if (m.idleBytes 0)[i]? = some true then some 0 else bytes[i]? := by
  intro bytes m
  have hread : decode bytes = .ok ⟨m, 81, 0⟩ := by cbv
  obtain ⟨-, -, blob, written, hblob, hencode, hlength, hcleared, -⟩ := encode_decode hread
  have hempty : slice? bytes 81 81 = some [] := by cbv
  obtain rfl : [] = blob := Option.some.inj (hempty.symm.trans hblob)
  exact ⟨hread, written, hencode, hlength, hcleared⟩

end TreeImage
