import TreeImage.Program.Basic

set_option autoImplicit false

/-! # Workers that share a queue

Several programs run in turns: a schedule says, call by call, which of them moves (`runTogether`). A
bounded pool is such a group: each worker asks whether the work is halted, takes the next index from a
shared cursor, does that job, and starts again (`worker`). `runBounded` collects the results by index,
with nothing for an index that no worker took. -/

namespace TreeImage

variable {I : Interface} {α β σ : Type}

/-! ## Taking turns -/

/-- Let one program make its next call. -/
def Program.step (h : Handler I σ) : Program I α → σ → Program I α × σ
  | .done a, s => (.done a, s)
  | .call c next, s => (next (h c s).1, (h c s).2)

/-- Let program number `i` of a group make its next call. -/
def stepAt (h : Handler I σ) : Nat → List (Program I α) → σ → List (Program I α) × σ
  | _, [], s => ([], s)
  | 0, p :: ps, s => ((p.step h s).1 :: ps, (p.step h s).2)
  | i + 1, p :: ps, s => (p :: (stepAt h i ps s).1, (stepAt h i ps s).2)

/-- Run the programs of a group to their ends, one after the other. -/
def runInTurn (h : Handler I σ) : List (Program I α) → σ → List α × σ
  | [], s => ([], s)
  | p :: ps, s =>
    let (a, s) := p.run h s
    let (as, s) := runInTurn h ps s
    (a :: as, s)

/-- Run a group along a schedule, one call for each of its numbers; what the schedule leaves unfinished
    is run to its end. A number without a program to it is a pause. -/
def runTogether (h : Handler I σ) : List Nat → List (Program I α) → σ → List α × σ
  | [], ps, s => runInTurn h ps s
  | i :: schedule, ps, s => runTogether h schedule (stepAt h i ps s).1 (stepAt h i ps s).2

/-! ## A pool -/

/-- The calls of `I`, and one that takes the next index from the shared cursor. -/
inductive PoolCall (I : Interface)
  | take
  | other (c : I.Call)

/-- What is replied to the calls of a pool. -/
def PoolCall.Reply {I : Interface} : PoolCall I → Type
  | .take => Nat
  | .other c => I.Reply c

/-- The interface of a pool's workers. -/
def Interface.withCursor (I : Interface) : Interface := ⟨PoolCall I, PoolCall.Reply⟩

/-- Taking an index moves the cursor on by one; all else is as before. -/
def Handler.withCursor (h : Handler I σ) : Handler I.withCursor (Nat × σ)
  | .take, (cursor, s) => (cursor, (cursor + 1, s))
  | .other c, (cursor, s) => ((h c s).1, (cursor, (h c s).2))

/-- A program as one of a pool's. -/
def Program.inPool (p : Program I α) : Program I.withCursor α :=
  p.interpret fun c => .call (I := I.withCursor) (.other c) .done

/-- One worker: until the work is halted or no index is left, take an index and do its job. It makes at
    most `fuel` rounds; the cursor moves in each, so `count + 1` rounds are enough. -/
def worker (count : Nat) (halted : Program I Bool) (job : Nat → Program I α) :
    Nat → Program I.withCursor (List (Nat × α))
  | 0 => .done []
  | fuel + 1 =>
    halted.inPool.bind fun stop =>
      if stop then .done []
      else .call (I := I.withCursor) .take fun (i : Nat) =>
        if count ≤ i then .done []
        else (job i).inPool.bind fun a =>
          (worker count halted job fuel).bind fun rest => .done ((i, a) :: rest)

/-- How many workers a pool has: no more than there are jobs, and at least one. -/
def poolSize (count workers : Nat) : Nat := max 1 (min workers (max count 1))

/-- The result of index `i` among those that the workers brought back. -/
def resultAt (results : List (Nat × α)) (i : Nat) : Option α := results.lookup i

/-- Run the jobs `0, …, count - 1` on a pool. An index that no worker took has no result. -/
def runBounded (h : Handler I σ) (schedule : List Nat) (count workers : Nat)
    (halted : Program I Bool) (job : Nat → Program I α) (s : σ) : List (Option α) × σ :=
  let group := List.replicate (poolSize count workers) (worker count halted job (count + 1))
  let (batches, (_, s)) := runTogether h.withCursor schedule group (0, s)
  ((List.range count).map (resultAt batches.flatten), s)

end TreeImage
