import TreeImage.Proofs.Manifest.Checked

set_option autoImplicit false

/-! # An image serves its own bytes

The accessors of an image give nothing where a range does not fit. For an image that was read all ranges fit: the
reader found the blob inside the bytes, the check of the manifest found the files inside the blob, and so no number
is cut to sixty-four bits. What is served is then a piece of the bytes, and files with content have pieces of
their own (`parse_serves`). -/

namespace TreeImage

variable {bs piece part bytes : Bytes} {start stop i j : Nat} {image : Image} {e e' : Entry} {path : String}

/-! ## Slices -/

theorem slice?_eq_some_iff : slice? bs start stop = some piece ↔
    start ≤ stop ∧ stop ≤ bs.length ∧ (bs.drop start).take (stop - start) = piece := by
  rw [slice?]
  split
  · next h => exact ⟨fun heq => ⟨h.1, h.2, Option.some.inj heq⟩, fun heq => congrArg some heq.2.2⟩
  · next h => exact ⟨fun heq => absurd heq.symm (Option.some_ne_none _), fun heq => absurd ⟨heq.1, heq.2.1⟩ h⟩

theorem slice?_whole (bs : Bytes) : slice? bs 0 bs.length = some bs :=
  slice?_eq_some_iff.2 ⟨Nat.zero_le _, le_rfl, List.take_length⟩

/-- A slice of a slice is a slice of the whole. -/
theorem slice?_of_slice? (h : slice? bs start stop = some piece) (hpart : slice? piece i j = some part) :
    slice? bs (start + i) (start + j) = some part := by
  have hlength := length_slice? h
  obtain ⟨hle, hin, rfl⟩ := slice?_eq_some_iff.1 h
  obtain ⟨hle', hin', rfl⟩ := slice?_eq_some_iff.1 hpart
  refine slice?_eq_some_iff.2 ⟨by omega, by omega, ?_⟩
  rw [List.drop_take, List.drop_drop, List.take_take, Nat.min_eq_left (by omega), Nat.add_sub_add_left]

namespace Image

/-! ## What was checked when the image was read -/

/-- An image that was read holds a blob within its bytes, and a manifest that is well-formed over this blob. -/
theorem wellFormed_of_parse (h : parse bytes = .ok image) :
    image.source = bytes ∧ slice? bytes image.blobStart (image.blobStart + image.blobLength) = some image.blob ∧
      image.blob.length = image.blobLength ∧ image.blobLength < 2 ^ 64 ∧
      image.manifest.WellFormed image.blobLength := by
  rw [parse] at h
  obtain ⟨d, hdecode, rfl⟩ := except_map_eq_ok.1 h
  obtain ⟨table, blob, -, -, hlength, hvalid, hbytes, hd⟩ := decode_eq_ok_iff.1 hdecode
  obtain ⟨m, blobStart, blobLength⟩ := d
  cases hd
  have hslice : slice? bytes (16 + table.length + 8) (16 + table.length + 8 + blob.length) = some blob := by
    rw [hbytes]
    exact slice?_imageAround m table blob
  have hblob : blob = Image.blob ⟨bytes, m, 16 + table.length + 8, blob.length⟩ := by
    rw [Image.blob, hslice, Option.getD_some]
  exact ⟨rfl, hblob ▸ hslice, hblob ▸ rfl, hlength, (Manifest.validate_eq_ok_iff_wellFormed _ _).1 hvalid⟩

/-- Directories have no content, so the range of every entry lies inside the blob. -/
theorem stop_le_blobLength (hformed : image.manifest.WellFormed image.blobLength) (he : e ∈ image.manifest.entries) :
    e.stop ≤ image.blobLength := by
  cases hfile : e.isFile with
  | true => exact hformed.filesInside e (List.mem_filter.2 ⟨he, hfile⟩)
  | false =>
    have hdirectory : e.isDirectory = true := by rw [Entry.isDirectory_eq_not_isFile, hfile, Bool.not_false]
    obtain ⟨hsize, hoffset, -⟩ := hformed.bareDirectories e (List.mem_filter.2 ⟨he, hdirectory⟩)
    rw [Entry.stop, hsize, hoffset]
    exact Nat.zero_le _

/-- The content of an entry is the piece of the blob that the entry tells of. -/
theorem slice?_blob (h : parse bytes = .ok image) (he : e ∈ image.manifest.entries) :
    e.stopWord = e.stop ∧ slice? image.blob e.start e.stop = some (image.content e) := by
  obtain ⟨-, -, hlength, hcapacity, hformed⟩ := wellFormed_of_parse h
  have hstop := stop_le_blobLength hformed he
  have hword : e.stopWord = e.stop := by
    have hsize : UInt64.size = 2 ^ 64 := rfl
    rw [Entry.stopWord]
    omega
  have hrange : e.start ≤ e.stop := Nat.le_add_right _ _
  refine ⟨hword, ?_⟩
  rw [content, hword, slice?, if_pos ⟨hrange, hlength ▸ hstop⟩, Option.getD_some]

theorem length_content_eq_size (h : parse bytes = .ok image) (he : e ∈ image.manifest.entries) :
    (image.content e).length = e.size.toNat := by
  rw [length_slice? (slice?_blob h he).2, Entry.stop, Entry.start, Nat.add_sub_cancel_left]

/-! ## Files by path -/

/-- The entry that is found by its path is the only one with this path. -/
theorem get?_eq_some_iff (h : parse bytes = .ok image) :
    image.manifest.get? path = some e ↔ e ∈ image.manifest.entries ∧ e.path = path := by
  obtain ⟨-, -, -, -, hformed⟩ := wellFormed_of_parse h
  constructor
  · intro hget
    rw [Manifest.get?] at hget
    have hpath := List.find?_some hget
    exact ⟨List.mem_of_find?_eq_some hget, beq_iff_eq.1 hpath⟩
  · rintro ⟨he, rfl⟩
    rw [Manifest.get?]
    cases hget : image.manifest.entries.find? (·.path == e.path) with
    | none => exact absurd (beq_self_eq_true e.path) (List.find?_eq_none.1 hget e he)
    | some e' =>
      have hsame := List.find?_some hget
      rw [List.inj_on_of_nodup_map hformed.distinct (List.mem_of_find?_eq_some hget) he (beq_iff_eq.1 hsame)]

theorem file?_eq_some_iff (h : parse bytes = .ok image) {c : Bytes} : image.file? path = some c ↔
    ∃ e ∈ image.manifest.entries, e.isFile = true ∧ e.path = path ∧
      (∀ e' ∈ image.manifest.entries, e'.path = path → e' = e) ∧ image.content e = c := by
  have honly : ∀ e e', image.manifest.get? path = some e → e' ∈ image.manifest.entries → e'.path = path → e' = e :=
    fun e e' hget he' hpath => Option.some.inj (((get?_eq_some_iff h).2 ⟨he', hpath⟩).symm.trans hget)
  rw [file?]
  constructor
  · intro hc
    split at hc
    · next e hget =>
      split at hc
      · next hfile =>
        obtain ⟨he, hpath⟩ := (get?_eq_some_iff h).1 hget
        exact ⟨e, he, hfile, hpath, fun e' => honly e e' hget, Option.some.inj hc⟩
      · cases hc
    · cases hc
  · rintro ⟨e, he, hfile, hpath, -, rfl⟩
    simp only [(get?_eq_some_iff h).2 ⟨he, hpath⟩, hfile, if_true]

theorem file?_eq_none_iff (h : parse bytes = .ok image) :
    image.file? path = none ↔ ∀ e ∈ image.manifest.entries, e.path = path → e.isDirectory = true := by
  have hnot : ∀ e : Entry, e.isDirectory = true ↔ ¬e.isFile = true := fun e => by
    rw [Entry.isDirectory_eq_not_isFile, Bool.not_eq_true', Bool.not_eq_true]
  rw [Option.eq_none_iff_forall_ne_some]
  constructor
  · intro hnone e he hpath
    refine (hnot e).2 fun hfile => ?_
    have hget := (get?_eq_some_iff h).2 ⟨he, hpath⟩
    exact hnone (image.content e) (by simp only [file?, hget, hfile, if_true])
  · intro hall c hc
    obtain ⟨e, he, hfile, hpath, -⟩ := (file?_eq_some_iff h).1 hc
    exact (hnot e).1 (hall e he hpath) hfile

/-! ## Bytes of their own -/

/-- The positions in the image that the content of an entry takes. -/
def positions (image : Image) (e : Entry) : Set Nat := Set.Ico (image.blobStart + e.start) (image.blobStart + e.stop)

theorem disjoint_positions (h : parse bytes = .ok image) (he : e ∈ image.manifest.files)
    (he' : e' ∈ image.manifest.files) (hne : e ≠ e') (hsize : e.size ≠ 0) (hsize' : e'.size ≠ 0) :
    Disjoint (image.positions e) (image.positions e') := by
  obtain ⟨-, -, -, -, hformed⟩ := wellFormed_of_parse h
  have hkept : ∀ x ∈ image.manifest.files, x.size ≠ 0 → x ∈ image.manifest.files.filter (·.size != 0) :=
    fun x hx hnot => List.mem_filter.2 ⟨hx, bne_iff_ne.2 hnot⟩
  have hsymm : Std.Symm fun a b : Entry => Disjoint a.range b.range := ⟨fun _ _ hd => hd.symm⟩
  have hdisjoint : Disjoint e.range e'.range :=
    hformed.disjointFiles.forall (hkept e he hsize) (hkept e' he' hsize') hne
  rw [Set.disjoint_left] at hdisjoint ⊢
  rintro i ⟨hstart, hstop⟩ ⟨hstart', hstop'⟩
  exact hdisjoint (a := i - image.blobStart) ⟨by omega, by omega⟩ ⟨by omega, by omega⟩

end Image

/-- **A parsed image serves exactly its bytes.** The image keeps all bytes, and its blob lies inside them. The content
    of an entry is the piece of the blob between its offset and its exact end, as long as the entry says. A path has
    the content of the one file entry that it is the path of, and none if it is that of a directory or of no entry.
    Two files with content take no position of the bytes in common. -/
theorem parse_serves (bytes : Bytes) (image : Image) (h : Image.parse bytes = .ok image) :
    (slice? image.source 0 image.source.length = some image.bytes ∧ image.bytes = bytes ∧
      slice? image.source image.blobStart (image.blobStart + image.blobLength) = some image.blob) ∧
    (∀ e ∈ image.manifest.entries, e.stopWord = e.offset.toNat + e.size.toNat ∧
      slice? image.blob e.offset.toNat (e.offset.toNat + e.size.toNat) = some (image.content e) ∧
      (image.content e).length = e.size.toNat ∧ (e.isDirectory = true → image.content e = [])) ∧
    (∀ path c, image.file? path = some c ↔ ∃ e ∈ image.manifest.entries, e.isFile = true ∧ e.path = path ∧
      (∀ e' ∈ image.manifest.entries, e'.path = path → e' = e) ∧ image.content e = c) ∧
    (∀ path, image.file? path = none ↔ ∀ e ∈ image.manifest.entries, e.path = path → e.isDirectory = true) ∧
    (∀ e ∈ image.manifest.entries,
      slice? bytes (image.blobStart + e.start) (image.blobStart + e.stop) = some (image.content e)) ∧
    ∀ e ∈ image.manifest.files, ∀ e' ∈ image.manifest.files, e ≠ e' → e.size ≠ 0 → e'.size ≠ 0 →
      Disjoint (image.positions e) (image.positions e') := by
  obtain ⟨hsource, hblob, -, -, hformed⟩ := Image.wellFormed_of_parse h
  refine ⟨⟨slice?_whole _, hsource, hsource ▸ hblob⟩, ?_, fun path c => Image.file?_eq_some_iff h,
    fun path => Image.file?_eq_none_iff h, ?_, ?_⟩
  · intro e he
    obtain ⟨hword, hslice⟩ := Image.slice?_blob h he
    have hlength := Image.length_content_eq_size h he
    refine ⟨hword, hslice, hlength, fun hdirectory => ?_⟩
    obtain ⟨hsize, -, -⟩ := hformed.bareDirectories e (List.mem_filter.2 ⟨he, hdirectory⟩)
    rw [hsize] at hlength
    exact List.eq_nil_of_length_eq_zero hlength
  · exact fun e he => slice?_of_slice? hblob (Image.slice?_blob h he).2
  · exact fun e he e' he' hne hsize hsize' => Image.disjoint_positions h he he' hne hsize hsize'

/-- An image with a directory, a file in it and a file beside it that lies behind that file in the blob. -/
theorem parse_serves_two_files :
    let m : Manifest := ⟨[.directory "d" none, .file "a" 1 2 .zero none, .file "d/f" 0 1 .zero none]⟩
    let image := Image.written m [7, 8, 9]
    Image.parse image.source = .ok image ∧ image.file? "a" = some [8, 9] ∧ image.file? "d" = none ∧
      Disjoint (image.positions (.file "a" 1 2 .zero none)) (image.positions (.file "d/f" 0 1 .zero none)) := by
  intro m image
  have hvalid : m.validate 3 = .ok () := by cbv
  have hparse : Image.parse image.source = .ok image :=
    Image.parse_written (by decide) (by decide) hvalid (by decide)
  obtain ⟨-, -, hfile, hnone, -, hdisjoint⟩ := parse_serves image.source image hparse
  have ha : Entry.file "a" 1 2 .zero none ∈ m.entries := by decide
  refine ⟨hparse, (hfile _ _).2 ⟨_, ha, rfl, rfl, by decide, by cbv⟩, (hnone _).2 (by decide),
    hdisjoint _ (by decide) _ (by decide) (by decide) (by decide) (by decide)⟩

end TreeImage
