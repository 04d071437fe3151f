import TreeImage.Proofs.Image.RoundTrip

set_option autoImplicit false

/-! # Where an image ends

A reader only moves forward. With more bytes behind its input it reads what it read before, and leaves them behind the
rest, unless it had found the input too short (`ReadsOn`). So an image says by itself where it ends: cut off anywhere, it
is found to be too short, and whatever stands behind it is counted (`decode_prefix_free`). -/

namespace TreeImage

variable {α β : Type} {front back rest : Bytes} {position n : Nat} {field : Field}

/-! ## Readers -/

/-- What comes of a reading when `back` is put behind its input. What was read is read again, with `back` behind the
    rest, and what was refused is refused again. Nothing is known where the input was too short. -/
inductive ReadsOn (back : Bytes) : Except FormatError (α × Cursor) → Except FormatError (α × Cursor) → Prop
  | read (a : α) (rest : Bytes) (position : Nat) :
      ReadsOn back (.ok (a, ⟨rest, position⟩)) (.ok (a, ⟨rest ++ back, position⟩))
  | refused (e : FormatError) : ReadsOn back (.error e) (.error e)
  | short (field : Field) (position : Nat) (result : Except FormatError (α × Cursor)) :
      ReadsOn back (.error (.truncated field position)) result

theorem ReadsOn.bind {x y : Except FormatError (α × Cursor)} {f : α × Cursor → Except FormatError (β × Cursor)}
    (h : ReadsOn back x y)
    (hnext : ∀ a rest position, ReadsOn back (f (a, ⟨rest, position⟩)) (f (a, ⟨rest ++ back, position⟩))) :
    ReadsOn back (x >>= f) (y >>= f) := by
  cases h with
  | read a rest position => exact hnext a rest position
  | refused e => exact .refused e
  | short field position => exact .short field position (y >>= f)

namespace Cursor

theorem take_readsOn : ReadsOn back (take ⟨rest, position⟩ n field) (take ⟨rest ++ back, position⟩ n field) := by
  by_cases hn : n ≤ rest.length
  · have htaken : ∀ more, take ⟨rest ++ more, position⟩ n field =
        .ok (rest.take n, ⟨rest.drop n ++ more, position + n⟩) := by
      intro more
      refine take_eq_ok_iff.2 ⟨?_, List.length_take_of_le hn, rfl⟩
      rw [← List.append_assoc, List.take_append_drop]
    have hshort := htaken []
    rw [List.append_nil, List.append_nil] at hshort
    rw [hshort, htaken]
    exact .read _ _ _
  · have hshort : (rest.take n).length < n := by
      rw [List.length_take]
      omega
    rw [take, if_pos hshort]
    exact .short _ _ _

theorem number_readsOn : ReadsOn back (number ⟨rest, position⟩ n field) (number ⟨rest ++ back, position⟩ n field) := by
  have hnumber : ∀ c : Cursor, c.number n field = c.take n field >>= fun x => .ok (ofLittleEndian x.1, x.2) := by
    intro c
    rw [number]
    cases c.take n field <;> rfl
  rw [hnumber, hnumber]
  exact take_readsOn.bind fun _ _ _ => .read _ _ _

theorem byte_readsOn : ReadsOn back (byte ⟨rest, position⟩ field) (byte ⟨rest ++ back, position⟩ field) := by
  have hbyte : ∀ c : Cursor, c.byte field = c.number 1 field >>= fun x => .ok (x.1.toUInt8, x.2) := by
    intro c
    rw [byte]
    cases c.number 1 field <;> rfl
  rw [hbyte, hbyte]
  exact number_readsOn.bind fun _ _ _ => .read _ _ _

theorem digest_readsOn : ReadsOn back (digest ⟨rest, position⟩) (digest ⟨rest ++ back, position⟩) := by
  cases hread : digest ⟨rest, position⟩ with
  | ok x =>
    obtain ⟨d, after, q⟩ := x
    obtain ⟨hrest, hposition⟩ := digest_eq_ok_iff.1 hread
    have hlonger : digest ⟨rest ++ back, position⟩ = .ok (d, ⟨after ++ back, q⟩) := by
      refine digest_eq_ok_iff.2 ⟨?_, hposition⟩
      simp only at hrest
      rw [hrest, List.append_assoc]
    rw [hlonger]
    exact .read _ _ _
  | error e =>
    rw [digest] at hread
    split at hread
    · next e' htake =>
      cases hread
      unfold take at htake
      split at htake
      · cases htake
        exact .short _ _ _
      · cases htake
    · cases hread

end Cursor

/-! ## Records -/

/-- A check that does not look at the input. -/
theorem ReadsOn.check {c : Prop} [Decidable c] {e : FormatError} {x y : Except FormatError (α × Cursor)}
    (h : ReadsOn back x y) : ReadsOn back (if c then .error e else x) (if c then .error e else y) := by
  split
  · exact .refused e
  · exact h

theorem Entry.read_readsOn (index : Nat) :
    ReadsOn back (Entry.read ⟨rest, position⟩ index) (Entry.read ⟨rest ++ back, position⟩ index) := by
  unfold Entry.read
  refine Cursor.number_readsOn.bind fun pathLength _ _ => ?_
  refine Cursor.take_readsOn.bind fun pathBytes _ _ => ?_
  dsimp only
  cases text? pathBytes with
  | none => exact .refused _
  | some path =>
    refine Cursor.byte_readsOn.bind fun tag _ _ => ?_
    dsimp only
    cases EntryKind.ofTag? tag with
    | none => exact .refused _
    | some kind =>
      refine Cursor.byte_readsOn.bind fun flags _ _ => ?_
      refine ReadsOn.check ?_
      refine Cursor.number_readsOn.bind fun mode _ _ => ?_
      refine Cursor.number_readsOn.bind fun size _ _ => ?_
      refine Cursor.number_readsOn.bind fun offset _ _ => ?_
      exact Cursor.digest_readsOn.bind fun digest _ _ => .read _ _ _

theorem Entry.readAll_readsOn (index count : Nat) :
    ReadsOn back (Entry.readAll index count ⟨rest, position⟩) (Entry.readAll index count ⟨rest ++ back, position⟩) := by
  induction count generalizing index rest position with
  | zero => exact .read _ _ _
  | succ count ih =>
    refine (Entry.read_readsOn index).bind fun e _ _ => ?_
    exact (ih (index + 1)).bind fun es _ _ => .read _ _ _

/-! ## Images -/

/-- What comes of reading a whole image when `back` is put behind it. If it was read, then `back` is counted. If it is
    read now, it was too short. -/
structure ClosesBefore (back : Bytes) (short long : Except FormatError β) : Prop where
  trailing : ∀ b, short = .ok b → long = .error (.trailingBytes back.length)
  cut : ∀ b, long = .ok b → (∃ field position, short = .error (.truncated field position)) ∨
    ∃ count remaining, short = .error (.entryCountTooLarge count remaining)

theorem closesBefore_error (e : FormatError) :
    ClosesBefore back (.error e : Except FormatError β) (.error e : Except FormatError β) :=
  ⟨nofun, nofun⟩

theorem ReadsOn.closes {x y : Except FormatError (α × Cursor)} {f : α × Cursor → Except FormatError β}
    (h : ReadsOn back x y)
    (hnext : ∀ a rest position, ClosesBefore back (f (a, ⟨rest, position⟩)) (f (a, ⟨rest ++ back, position⟩))) :
    ClosesBefore back (x >>= f) (y >>= f) := by
  cases h with
  | read a rest position => exact hnext a rest position
  | refused e => exact closesBefore_error e
  | short field position => exact ⟨nofun, fun _ _ => .inl ⟨field, position, rfl⟩⟩

theorem ClosesBefore.check {c : Prop} [Decidable c] {e : FormatError} {x y : Except FormatError β}
    (h : ClosesBefore back x y) : ClosesBefore back (if c then .error e else x) (if c then .error e else y) := by
  split
  · exact closesBefore_error e
  · exact h

/-- The bytes of an image that is cut off may be too few for the entry count. -/
theorem ClosesBefore.checkCount {count room : Nat} {x y : Except FormatError β} (h : ClosesBefore back x y) :
    ClosesBefore back (if rest.length < room then .error (.entryCountTooLarge count rest.length) else x)
      (if (rest ++ back).length < room then .error (.entryCountTooLarge count (rest ++ back).length) else y) := by
  rw [List.length_append]
  by_cases hshort : rest.length < room
  · rw [if_pos hshort]
    exact ⟨nofun, fun _ _ => .inr ⟨count, _, rfl⟩⟩
  · rw [if_neg hshort, if_neg (by omega)]
    exact h

/-- What is left after the blob is counted. -/
theorem closesBefore_checkEnd (hback : back ≠ []) (x : Except FormatError β) :
    ClosesBefore back (if rest.length ≠ 0 then .error (.trailingBytes rest.length) else x)
      (if (rest ++ back).length ≠ 0 then .error (.trailingBytes (rest ++ back).length) else x) := by
  have hleft : (rest ++ back).length ≠ 0 := by
    rw [ne_eq, List.length_eq_zero_iff, List.append_eq_nil_iff]
    exact fun h => hback h.2
  rw [if_pos hleft]
  refine ⟨fun b hb => ?_, nofun⟩
  split at hb
  · cases hb
  · next hend =>
    rw [List.length_eq_zero_iff.1 (Decidable.not_not.1 hend), List.nil_append]

theorem decode_closesBefore (hback : back ≠ []) : ClosesBefore back (decode front) (decode (front ++ back)) := by
  unfold decode
  refine Cursor.take_readsOn.closes fun found _ _ => ?_
  refine ClosesBefore.check ?_
  refine Cursor.number_readsOn.closes fun version _ _ => ?_
  refine ClosesBefore.check ?_
  refine Cursor.number_readsOn.closes fun reserved _ _ => ?_
  refine ClosesBefore.check ?_
  refine Cursor.number_readsOn.closes fun count _ _ => ?_
  refine ClosesBefore.checkCount ?_
  refine (Entry.readAll_readsOn 0 count).closes fun entries _ _ => ?_
  refine Cursor.number_readsOn.closes fun blobLength _ _ => ?_
  refine Cursor.take_readsOn.closes fun blob _ _ => ?_
  exact closesBefore_checkEnd hback _

/-- **An image says where it ends.** A byte string that is read as an image is read neither with bytes missing at its
    end nor with more behind it. Cut off anywhere, it is refused as truncated or for its entry count, and bytes behind
    it are refused with their number. -/
theorem decode_prefix_free {bytes : Bytes} {d : Decoded} (h : decode bytes = .ok d) :
    (∀ front, front <+: bytes → front ≠ bytes →
      (∃ field position, decode front = .error (.truncated field position)) ∨
        ∃ count remaining, decode front = .error (.entryCountTooLarge count remaining)) ∧
    ∀ back, back ≠ [] → decode (bytes ++ back) = .error (.trailingBytes back.length) := by
  constructor
  · rintro front ⟨back, rfl⟩ hproper
    have hback : back ≠ [] := by
      rintro rfl
      exact hproper front.append_nil.symm
    exact (decode_closesBefore hback).cut d h
  · exact fun back hback => (decode_closesBefore hback).trailing d h

theorem decode_prefix_free_directory_and_file :
    let m : Manifest := ⟨[.directory "d" (some 0), .file "d/f" 0 2 .zero none]⟩
    let bytes := m.layout [104, 105]
    (∃ d, decode bytes = .ok d) ∧
      (∀ n < bytes.length, (∃ field position, decode (bytes.take n) = .error (.truncated field position)) ∨
        ∃ count remaining, decode (bytes.take n) = .error (.entryCountTooLarge count remaining)) ∧
      decode (bytes ++ bytes) = .error (.trailingBytes bytes.length) := by
  intro m bytes
  have hpaths : ∀ e ∈ m.entries, (utf8 e.path).length ≤ maxPathLength := by decide
  have hblob : ([104, 105] : Bytes).length < byteCapacity 8 := by decide
  have hvalid : m.validate 2 = .ok () := by cbv
  have hread := decode_imageAround (.flatMap_encode hpaths) (show m.size < byteCapacity 4 by decide) hblob hvalid
  rw [← m.layout_eq_imageAround] at hread
  obtain ⟨hshort, hlong⟩ := decode_prefix_free hread
  refine ⟨⟨_, hread⟩, fun n hn => hshort _ (List.take_prefix n bytes) fun hsame => ?_, hlong bytes (by decide)⟩
  exact hn.ne ((List.length_take_of_le hn.le).symm.trans (congrArg List.length hsame))

end TreeImage
