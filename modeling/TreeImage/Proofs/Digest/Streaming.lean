import TreeImage.Digest.Reader

set_option autoImplicit false

/-! # The digest of what was handed out

Reads may be short, be interrupted, fail or hand out nothing, in any order, and a source can do all of that
(`Source.answers_answering`). A `HashingReader` gives the answers of its source, and takes in the bytes of each of them
once (`HashingReader.readAll_eq`). Draining goes on until a read hands out nothing or fails for good
(`HashingReader.exists_drained`), so the digest is that of all bytes handed out, before and meanwhile
(`HashingReader.hashes_handedOut`). -/

namespace TreeImage

variable {s : Source} {r : HashingReader} {capacity fuel : Nat} {given : List (Except ReadError Bytes)}

/-! ## Answers -/

/-- The bytes that a read handed out. -/
def pieceOf : Except ReadError Bytes → Bytes
  | .ok bs => bs
  | .error _ => []

/-- The bytes that some reads handed out, in order. -/
def handedOut (given : List (Except ReadError Bytes)) : Bytes := given.flatMap pieceOf

@[simp] theorem handedOut_nil : handedOut [] = [] := rfl

@[simp] theorem handedOut_cons (answer : Except ReadError Bytes) (given : List (Except ReadError Bytes)) :
    handedOut (answer :: given) = pieceOf answer ++ handedOut given := List.flatMap_cons

/-- After such an answer, draining reads on: there were bytes, or the read was interrupted. -/
def GoesOn (answer : Except ReadError Bytes) : Prop := answer = .error .interrupted ∨ ∃ b bs, answer = .ok (b :: bs)

theorem GoesOn.ne_ok_nil {answer : Except ReadError Bytes} (h : GoesOn answer) : answer ≠ .ok [] := by
  rintro rfl
  simp [GoesOn] at h

namespace Source

/-- What a source answers to reads into buffers of these sizes, one after the other, and what is left of it. -/
def answers : List Nat → Source → List (Except ReadError Bytes) × Source
  | [], s => ([], s)
  | capacity :: reads, s =>
    let (answer, s) := s.read capacity
    let (more, s) := answers reads s
    (answer :: more, s)

/-! ### Every behaviour -/

/-- The turn that leads to an answer. -/
def turnOf : Except ReadError Bytes → Turn
  | .ok bs => .upTo bs.length
  | .error .interrupted => .interrupted
  | .error (.failed message) => .failed message

/-- A source that gives these answers. -/
def answering (given : List (Except ReadError Bytes)) : Source := ⟨given.map turnOf, handedOut given⟩

theorem read_answering {answer : Except ReadError Bytes} (h : (pieceOf answer).length ≤ capacity) :
    (answering (answer :: given)).read capacity = (answer, answering given) := by
  rcases answer with (_ | message) | bs
  · rfl
  · rfl
  · have hmin : min bs.length capacity = bs.length := Nat.min_eq_left h
    simp [answering, read, turnOf, handOut, pieceOf, hmin]

/-- **Whatever a reader answers, a source answers the same,** as long as no answer is longer than the buffer. -/
theorem answers_answering {asked : List (Nat × Except ReadError Bytes)}
    (h : ∀ x ∈ asked, (pieceOf x.2).length ≤ x.1) :
    (answering (asked.map (·.2))).answers (asked.map (·.1)) = (asked.map (·.2), answering []) := by
  induction asked with
  | nil => rfl
  | cons x asked ih =>
    obtain ⟨hfirst, hrest⟩ := List.forall_mem_cons.1 h
    rw [List.map_cons, List.map_cons, answers, read_answering hfirst]
    simp only [ih hrest]

/-! ### Using a source up -/

/-- A read that hands out bytes, or is no success, brings the source nearer to its end. -/
theorem steps_read_lt (s : Source) (hcapacity : 0 < capacity) (h : (s.read capacity).1 ≠ .ok []) :
    (s.read capacity).2.steps < s.steps := by
  obtain ⟨turns, data⟩ := s
  cases turns with
  | nil =>
    have hdata : 0 < data.length := by
      rw [List.length_pos_iff]
      rintro rfl
      exact h (by simp [read, handOut])
    simp only [read, handOut, steps, List.length_drop]
    omega
  | cons turn turns =>
    cases turn with
    | upTo limit =>
      simp only [read, handOut, steps, List.length_cons, List.length_drop]
      omega
    | interrupted | failed message => simp [read, steps]

end Source

/-! ## Reading -/

namespace HashingReader

/-- Read into buffers of these sizes, one after the other: the answers, and the reader afterwards. -/
def readAll : List Nat → HashingReader → List (Except ReadError Bytes) × HashingReader
  | [], r => ([], r)
  | capacity :: reads, r =>
    let (answer, r) := r.read capacity
    let (more, r) := readAll reads r
    (answer :: more, r)

/-- A read passes the answer of the source on, and takes in its bytes. -/
theorem read_eq (r : HashingReader) (capacity : Nat) : r.read capacity =
    ((r.source.read capacity).1, ⟨(r.source.read capacity).2, r.hasher.update (pieceOf (r.source.read capacity).1),
      r.count + (pieceOf (r.source.read capacity).1).length⟩) := by
  rw [read]
  rcases r.source.read capacity with ⟨_ | bs, rest⟩ <;> rfl

theorem readAll_eq (r : HashingReader) (reads : List Nat) : r.readAll reads =
    ((r.source.answers reads).1, ⟨(r.source.answers reads).2, r.hasher.update (handedOut (r.source.answers reads).1),
      r.count + (handedOut (r.source.answers reads).1).length⟩) := by
  induction reads generalizing r with
  | nil => rfl
  | cons capacity reads ih =>
    simp [readAll, Source.answers, read_eq, ih, Sha256.Hasher.update_append, Nat.add_assoc]

/-! ## Draining -/

/-- One read of draining. -/
theorem drainUpTo_succ (fuel : Nat) (r : HashingReader) : drainUpTo (fuel + 1) r =
    match (r.read drainCapacity).1 with
    | .ok [] => .ok (r.read drainCapacity).2
    | .error (.failed message) => .error message
    | _ => drainUpTo fuel (r.read drainCapacity).2 := by
  rw [drainUpTo]
  rcases r.read drainCapacity with ⟨(_ | message) | (_ | ⟨b, bs⟩), next⟩ <;> rfl

/-- A way to drain `r`: some answers after which one reads on, and a last one. Nothing handed out is a success, with
    all bytes taken in; an error that is no interruption is passed on. -/
def Drained (r : HashingReader) (result : Except String Sha256.Hasher) : Prop := ∃ before last,
  (r.source.answers (List.replicate (before.length + 1) drainCapacity)).1 = before ++ [last] ∧
    (∀ answer ∈ before, GoesOn answer) ∧
    (last = .ok [] ∧ result = .ok (r.hasher.update (handedOut before)) ∨
      ∃ message, last = .error (.failed message) ∧ result = .error message)

/-- One more read before the draining. -/
theorem Drained.of_read {result : Except String Sha256.Hasher} (hgoes : GoesOn (r.source.read drainCapacity).1)
    (h : Drained (r.read drainCapacity).2 result) : Drained r result := by
  obtain ⟨before, last, hanswers, hbefore, hlast⟩ := h
  rw [read_eq] at hanswers hlast
  refine ⟨(r.source.read drainCapacity).1 :: before, last, ?_, List.forall_mem_cons.2 ⟨hgoes, hbefore⟩, ?_⟩
  · rw [List.length_cons, List.replicate_succ, Source.answers]
    simp [hanswers]
  · simpa [Sha256.Hasher.update_append] using hlast

/-- **Draining takes in every byte up to the first read that hands out nothing,** unless a read fails for good. -/
theorem drained (hfuel : r.source.steps ≤ fuel) : Drained r ((drainUpTo fuel r).map (·.hasher)) := by
  induction fuel generalizing r with
  | zero => simp [Source.steps] at hfuel
  | succ fuel ih =>
    rw [drainUpTo_succ, read_eq]
    -- where draining reads on, the rest of the source is nearer to its end
    have hmore (hgoes : GoesOn (r.source.read drainCapacity).1) :
        Drained r ((drainUpTo fuel (r.read drainCapacity).2).map (·.hasher)) := by
      have hlt := r.source.steps_read_lt (by decide : 0 < drainCapacity) hgoes.ne_ok_nil
      refine .of_read hgoes (ih ?_)
      rw [read_eq]
      exact Nat.le_of_lt_succ (Nat.lt_of_lt_of_le hlt hfuel)
    rw [read_eq] at hmore
    rcases hread : r.source.read drainCapacity with ⟨(_ | message) | (_ | ⟨b, bs⟩), rest⟩ <;> rw [hread] at hmore
    · exact hmore (.inl rfl)
    · exact ⟨[], _, by simp [Source.answers, hread], by simp, .inr ⟨message, rfl, rfl⟩⟩
    · exact ⟨[], _, by simp [Source.answers, hread], by simp, .inl ⟨rfl, rfl⟩⟩
    · exact hmore (.inr ⟨b, bs, rfl⟩)

/-! ## The digest -/

theorem intoDigest_eq (r : HashingReader) : r.intoDigest = (r.drain.map (·.hasher)).map .ofHasher := by
  rw [intoDigest]
  cases r.drain <;> rfl

theorem finish_eq_ok_iff {expected d : Digest} :
    r.finish expected = .ok d ↔ r.intoDigest = .ok d ∧ d = expected := by
  rw [finish]
  cases r.intoDigest with
  | error message => simp
  | ok actual =>
    simp only [Digest.confirm]
    split <;> grind

/-- **The digest is that of all bytes handed out,** once each and in order, those of the reads and those of
    draining. At every point the count is that of the bytes handed out so far, and a read that fails changes neither
    hash nor count. -/
theorem hashes_handedOut (s : Source) (reads : List Nat) (expected : Digest) :
    let given := (s.answers reads).1
    let rest := (s.answers reads).2
    let r := ((new s).readAll reads).2
    ((new s).readAll reads).1 = given ∧ r.count = (handedOut given).length ∧
      (∀ capacity e, (r.read capacity).1 = .error e →
        (r.read capacity).2.count = r.count ∧ (r.read capacity).2.hasher = r.hasher) ∧
      (∃ before last, (rest.answers (List.replicate (before.length + 1) drainCapacity)).1 = before ++ [last] ∧
        (∀ answer ∈ before, GoesOn answer) ∧
        (last = .ok [] ∧ r.intoDigest = .ok (.of (handedOut given ++ handedOut before)) ∨
          ∃ message, last = .error (.failed message) ∧ r.intoDigest = .error message)) ∧
      ∀ d, r.finish expected = .ok d ↔ r.intoDigest = .ok d ∧ d = expected := by
  intro given rest r
  have hr : (new s).readAll reads = (given, ⟨rest, .update .start (handedOut given), 0 + (handedOut given).length⟩) :=
    readAll_eq (new s) reads
  have hreader : r = ⟨rest, .update .start (handedOut given), (handedOut given).length⟩ := by simp [r, hr]
  refine ⟨by rw [hr], by rw [hreader], fun capacity e he => ?_, ?_, fun d => finish_eq_ok_iff⟩
  · have hread : r.read capacity = (.error e, (r.read capacity).2) := Prod.ext he rfl
    exact (read_error hread).symm
  · obtain ⟨before, last, hanswers, hbefore, hlast⟩ := drained (r := r) (Nat.le_refl _)
    rw [hreader] at hanswers hlast
    refine ⟨before, last, hanswers, hbefore, ?_⟩
    rw [intoDigest_eq, hreader]
    rcases hlast with ⟨hlast, hdrain⟩ | ⟨message, hlast, hdrain⟩
    · exact .inl ⟨hlast, by rw [drain, hdrain, ← Sha256.Hasher.update_append]; rfl⟩
    · exact .inr ⟨message, hlast, by rw [drain, hdrain]; rfl⟩

end HashingReader

end TreeImage
