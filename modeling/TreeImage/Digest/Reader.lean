import TreeImage.Digest.Basic

set_option autoImplicit false

/-! # Reading and hashing in one pass

A `Source` hands out a byte string piece by piece: each read may be short, be interrupted, fail, or look
like the end of the input. A `HashingReader` hashes what passes through it, so its digest is that of the
bytes handed out, whatever the sizes of the reads (`HashingReader.read_ok`). -/

namespace TreeImage

/-! ## Sources -/

/-- Why a read gave no bytes. An interrupted read may be tried again. -/
inductive ReadError
  | interrupted
  | failed (message : String)
  deriving DecidableEq, Repr

/-- What a source does when it is read. -/
inductive Turn
  | upTo (limit : Nat)
  | interrupted
  | failed (message : String)
  deriving DecidableEq, Repr

/-- A source follows its turns and then fills every buffer until its data is used up. -/
structure Source where
  turns : List Turn
  data : Bytes
  deriving DecidableEq, Repr

namespace Source

/-- Hand out at most `limit` bytes. -/
def handOut (s : Source) (limit : Nat) : Except ReadError Bytes × Source :=
  (.ok (s.data.take limit), { s with data := s.data.drop limit })

/-- One read into a buffer of `capacity` bytes. -/
def read (s : Source) (capacity : Nat) : Except ReadError Bytes × Source :=
  match s.turns with
  | [] => s.handOut capacity
  | .upTo limit :: rest => { s with turns := rest }.handOut (min limit capacity)
  | .interrupted :: rest => (.error .interrupted, { s with turns := rest })
  | .failed message :: rest => (.error (.failed message), { s with turns := rest })

/-- An upper bound on the number of reads until a source is used up. -/
def steps (s : Source) : Nat := s.turns.length + s.data.length + 1

end Source

/-! ## Hashing readers -/

/-- A source, the hash of what it handed out, and how many bytes that was. -/
structure HashingReader where
  source : Source
  hasher : Sha256.Hasher
  count : Nat
  deriving DecidableEq, Repr

namespace HashingReader

/-- A reader that has handed out nothing yet. -/
def new (s : Source) : HashingReader := ⟨s, .start, 0⟩

/-- One read into a buffer of `capacity` bytes. -/
def read (r : HashingReader) (capacity : Nat) : Except ReadError Bytes × HashingReader :=
  match r.source.read capacity with
  | (.error e, rest) => (.error e, { r with source := rest })
  | (.ok bs, rest) => (.ok bs, ⟨rest, r.hasher.update bs, r.count + bs.length⟩)

/-- A successful read hashes and counts exactly what it hands out. -/
theorem read_ok {r r' : HashingReader} {capacity : Nat} {bs : Bytes}
    (h : r.read capacity = (.ok bs, r')) :
    r'.hasher = r.hasher.update bs ∧ r'.count = r.count + bs.length := by
  unfold read at h
  split at h
  · exact absurd (congrArg Prod.fst h) (by simp)
  · cases h
    exact ⟨rfl, rfl⟩

/-- A read that fails changes neither the hash nor the count. -/
theorem read_error {r r' : HashingReader} {capacity : Nat} {e : ReadError}
    (h : r.read capacity = (.error e, r')) : r'.hasher = r.hasher ∧ r'.count = r.count := by
  unfold read at h
  split at h
  · cases h
    exact ⟨rfl, rfl⟩
  · exact absurd (congrArg Prod.fst h) (by simp)

/-- The buffer that draining reads into. -/
def drainCapacity : Nat := 8192

/-- Read until a read hands out nothing, in at most `fuel` reads. Interrupted reads are repeated. -/
def drainUpTo : Nat → HashingReader → Except String HashingReader
  | 0, r => .ok r
  | fuel + 1, r =>
    match r.read drainCapacity with
    | (.ok [], r) => .ok r
    | (.ok (_ :: _), r) => drainUpTo fuel r
    | (.error .interrupted, r) => drainUpTo fuel r
    | (.error (.failed message), _) => .error message

/-- Read the rest of the source. -/
def drain (r : HashingReader) : Except String HashingReader := drainUpTo r.source.steps r

/-- Drain the source; the digest of everything handed out. -/
def intoDigest (r : HashingReader) : Except String Digest :=
  r.drain.map fun r => .ofHasher r.hasher

/-- Drain the source and check the digest of everything handed out. -/
def finish (r : HashingReader) (expected : Digest) : Except VerificationError Digest :=
  match r.intoDigest with
  | .error message => .error (.io message)
  | .ok actual => Digest.confirm expected actual

end HashingReader

end TreeImage
