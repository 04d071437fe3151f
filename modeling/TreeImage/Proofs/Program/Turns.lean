import TreeImage.Proofs.Program.Dialogue
import TreeImage.Proofs.Program.Learning

set_option autoImplicit false

/-! # The turns of a pool

A run of a group is looked at turn by turn here (`runAlong`). Every run is one along turns after which all
programs have ended (`WholeRun`), so each of its moments is what stands after some first turns. For a pool this
says what happens after a moment from which on the work is halted: a worker that is in the middle of a round may
still take an index, and no worker takes more than one (`runAlong_takes`). With what is known of the dialogue of a
pool, this is all that a user of it relies on (`runBounded_starts_first_jobs`). -/

namespace TreeImage

variable {I : Interface} {α β σ : Type} {h : Handler I σ}

/-! ## Turn by turn -/

/-- What stands after the turns: what is left of the programs, and the state. -/
def runAlong (h : Handler I σ) : List Nat → List (Program I α) → σ → List (Program I α) × σ
  | [], ps, s => (ps, s)
  | i :: turns, ps, s => runAlong h turns (stepAt h i ps s).1 (stepAt h i ps s).2

theorem runAlong_append (before after : List Nat) (ps : List (Program I α)) (s : σ) :
    runAlong h (before ++ after) ps s = runAlong h after (runAlong h before ps s).1 (runAlong h before ps s).2 := by
  induction before generalizing ps s with
  | nil => rfl
  | cons i before ih => exact ih _ _

theorem runTogether_eq_runInTurn (schedule : List Nat) (ps : List (Program I α)) (s : σ) :
    runTogether h schedule ps s = runInTurn h (runAlong h schedule ps s).1 (runAlong h schedule ps s).2 := by
  induction schedule generalizing ps s with
  | nil => rfl
  | cons i schedule ih => exact ih _ _

/-- Turns that go along a schedule, and on until all programs have ended. -/
structure WholeRun (h : Handler I σ) (schedule : List Nat) (ps : List (Program I α)) (s : σ) (turns : List Nat) :
    Prop where
  along : schedule <+: turns
  ended : runAlong h turns ps s =
    ((runTogether h schedule ps s).1.map .done, (runTogether h schedule ps s).2)

/-- The turns of the first program alone. -/
theorem exists_turns_run (p : Program I α) (ps : List (Program I α)) (s : σ) :
    ∃ turns, runAlong h turns (p :: ps) s = (.done (p.run h s).1 :: ps, (p.run h s).2) := by
  induction p generalizing s with
  | done a => exact ⟨[], rfl⟩
  | call c next ih =>
    obtain ⟨turns, hturns⟩ := ih (h c s).1 (h c s).2
    exact ⟨0 :: turns, hturns⟩

/-- The turns of all programs but the first. -/
theorem runAlong_map_succ (turns : List Nat) (p : Program I α) (ps : List (Program I α)) (s : σ) :
    runAlong h (turns.map (· + 1)) (p :: ps) s = (p :: (runAlong h turns ps s).1, (runAlong h turns ps s).2) := by
  induction turns generalizing ps s with
  | nil => rfl
  | cons i turns ih => exact ih _ _

theorem exists_turns_runInTurn (ps : List (Program I α)) (s : σ) :
    ∃ turns, runAlong h turns ps s = ((runInTurn h ps s).1.map .done, (runInTurn h ps s).2) := by
  induction ps generalizing s with
  | nil => exact ⟨[], rfl⟩
  | cons p ps ih =>
    obtain ⟨first, hfirst⟩ := exists_turns_run p ps s
    obtain ⟨rest, hrest⟩ := ih (p.run h s).2
    refine ⟨first ++ rest.map (· + 1), ?_⟩
    rw [runAlong_append, hfirst, runAlong_map_succ, hrest]
    rfl

/-- Every run is one along turns that leave nothing to be done. -/
theorem exists_wholeRun (schedule : List Nat) (ps : List (Program I α)) (s : σ) :
    ∃ turns, WholeRun h schedule ps s turns := by
  obtain ⟨rest, hrest⟩ := exists_turns_runInTurn (h := h) (runAlong h schedule ps s).1 (runAlong h schedule ps s).2
  refine ⟨schedule ++ rest, List.prefix_append .., ?_⟩
  rw [runAlong_append, hrest, ← runTogether_eq_runInTurn]

/-- No turn adds a program to the group or removes one. -/
theorem length_stepAt (i : Nat) (ps : List (Program I α)) (s : σ) : (stepAt h i ps s).1.length = ps.length := by
  induction ps generalizing i with
  | nil => cases i <;> rfl
  | cons p ps ih =>
    cases i with
    | zero => rfl
    | succ i => exact congrArg (· + 1) (ih i)

theorem length_runAlong (turns : List Nat) (ps : List (Program I α)) (s : σ) :
    (runAlong h turns ps s).1.length = ps.length := by
  induction turns generalizing ps s with
  | nil => rfl
  | cons i turns ih => rw [runAlong, ih, length_stepAt]

/-! ## What is left of a program -/

namespace Program

/-- All that can ever be left of the program is of this kind. -/
def Throughout (h : Handler I σ) (kind : Program I α → Prop) : Program I α → Prop
  | done a => kind (done a)
  | call c next => kind (call c next) ∧ ∀ s, (next (h c s).1).Throughout h kind

variable {kind : Program I α → Prop} {p : Program I α}

theorem Throughout.now (hp : p.Throughout h kind) : kind p := by
  cases p with
  | done a => exact hp
  | call c next => exact hp.1

theorem Throughout.step (hp : p.Throughout h kind) (s : σ) : (p.step h s).1.Throughout h kind := by
  cases p with
  | done a => exact hp
  | call c next => exact hp.2 s

theorem Throughout.bind_done {kind' : Program I β → Prop} {g : α → β} (hp : p.Throughout h kind)
    (hkind : ∀ q, kind q → kind' (q.bind fun a => done (g a))) :
    (p.bind fun a => done (g a)).Throughout h kind' := by
  induction p with
  | done a => exact hkind _ hp
  | call c next ih => exact ⟨hkind _ hp.1, fun s => ih _ (hp.2 s)⟩

theorem throughout_inPool_bind {kind : Program I.withCursor β → Prop} (p : Program I α)
    {f : α → Program I.withCursor β} (hkind : ∀ q : Program I α, kind (q.inPool.bind f))
    (hf : ∀ a, (f a).Throughout h.withCursor kind) : (p.inPool.bind f).Throughout h.withCursor kind := by
  induction p with
  | done a => exact hf a
  | call c next ih => exact ⟨hkind (call c next), fun s => ih _⟩

end Program

theorem throughout_stepAt {kind : Program I α → Prop} {ps : List (Program I α)}
    (hps : ∀ p ∈ ps, p.Throughout h kind) (i : Nat) (s : σ) : ∀ p ∈ (stepAt h i ps s).1, p.Throughout h kind := by
  induction ps generalizing i with
  | nil => cases i <;> exact nofun
  | cons p ps ih =>
    obtain ⟨hp, hrest⟩ := List.forall_mem_cons.1 hps
    cases i with
    | zero => exact List.forall_mem_cons.2 ⟨hp.step s, hrest⟩
    | succ i => exact List.forall_mem_cons.2 ⟨hp, ih hrest i⟩

theorem throughout_runAlong {kind : Program I α → Prop} {ps : List (Program I α)}
    (hps : ∀ p ∈ ps, p.Throughout h kind) (turns : List Nat) (s : σ) :
    ∀ p ∈ (runAlong h turns ps s).1, p.Throughout h kind := by
  induction turns generalizing ps s with
  | nil => exact hps
  | cons i turns ih => exact ih (throughout_stepAt hps i s) _

/-! ## How many indices a worker takes -/

/-- If every call is answered in such a state, the program takes no more than this many indices. -/
def Program.TakesAtMost (h : Handler I σ) (kept : σ → Prop) : Program I.withCursor β → Nat → Prop
  | .done _, _ => True
  | .call (.other c) next, n => ∀ s, kept s → (next (h c s).1).TakesAtMost h kept n
  | .call .take next, n => 0 < n ∧ ∀ i : Nat, (next i).TakesAtMost h kept (n - 1)

section Takes

variable {kept : σ → Prop} {n m : Nat}

namespace Program

theorem TakesAtMost.mono {p : Program I.withCursor β} (hp : p.TakesAtMost h kept n) (hle : n ≤ m) :
    p.TakesAtMost h kept m := by
  induction p generalizing n m with
  | done a => trivial
  | call c next ih =>
    cases c with
    | take => exact ⟨hp.1.trans_le hle, fun i => ih i (hp.2 i) (Nat.sub_le_sub_right hle 1)⟩
    | other c => exact fun s hs => ih _ (hp s hs) hle

theorem TakesAtMost.bind_done {p : Program I.withCursor α} {g : α → β} (hp : p.TakesAtMost h kept n) :
    (p.bind fun a => done (g a)).TakesAtMost h kept n := by
  induction p generalizing n with
  | done a => trivial
  | call c next ih =>
    cases c with
    | take => exact ⟨hp.1, fun i => ih i (hp.2 i)⟩
    | other c => exact fun s hs => ih _ (hp s hs)

/-- What is not done by a worker itself takes no index. -/
theorem Learns.takesAtMost {p : Program I α} {f : α → Program I.withCursor β} {told : α → Prop}
    (hp : p.Learns h kept told) (hf : ∀ a, told a → (f a).TakesAtMost h kept n) :
    (p.inPool.bind f).TakesAtMost h kept n := by
  induction p with
  | done a => exact hf a hp
  | call c next ih => exact fun s hs => ih _ (hp s hs)

end Program

variable {halted : Program I Bool} {job : Nat → Program I α} {count : Nat}

/-- A worker that begins its round when the work is halted takes no index. -/
theorem worker_takes_none (hhalted : halted.Learns h kept (· = true)) (fuel : Nat) :
    (worker count halted job fuel).TakesAtMost h kept 0 := by
  cases fuel with
  | zero => trivial
  | succ fuel =>
    refine hhalted.takesAtMost ?_
    rintro _ rfl
    trivial

/-- The rest of the round in which a worker took an index, and the rounds after it. -/
theorem round_takes_none (hhalted : halted.Learns h kept (· = true)) (fuel i : Nat) (p : Program I α) :
    (p.inPool.bind fun a => (worker count halted job fuel).bind fun rest => .done ((i, a) :: rest)).TakesAtMost
      h kept 0 :=
  (Program.learns_true p).takesAtMost fun _ _ => (worker_takes_none hhalted fuel).bind_done

/-- Wherever a worker stands when the work is halted, it takes at most one more index. -/
theorem worker_takes_one (hhalted : halted.Learns h kept (· = true)) (fuel : Nat) :
    (worker count halted job fuel).Throughout h.withCursor (·.TakesAtMost h kept 1) := by
  induction fuel with
  | zero => trivial
  | succ fuel ih =>
    -- the look that is under way may have been answered before, and may still find that the work goes on
    have hround : ∀ stop : Bool, (if stop then Program.done []
        else Program.call (I := I.withCursor) .take fun (i : Nat) =>
          if count ≤ i then .done []
          else (job i).inPool.bind fun a => (worker count halted job fuel).bind fun rest =>
            .done ((i, a) :: rest)).TakesAtMost h kept 1 := by
      intro stop
      cases stop with
      | true => trivial
      | false =>
        refine ⟨Nat.one_pos, fun i => ?_⟩
        dsimp only
        split
        · trivial
        · exact round_takes_none hhalted fuel i (job i)
    refine Program.throughout_inPool_bind halted ?_ ?_
    · exact fun q => (Program.learns_true q).takesAtMost fun stop _ => hround stop
    · intro stop
      cases stop with
      | true => trivial
      | false =>
        refine ⟨hround false, fun s => ?_⟩
        show (if count ≤ s.1 then Program.done []
          else (job s.1).inPool.bind fun a => (worker count halted job fuel).bind fun rest =>
            .done ((s.1, a) :: rest)).Throughout h.withCursor _
        split
        · trivial
        · refine Program.throughout_inPool_bind (job s.1) ?_ ?_
          · exact fun q => (round_takes_none hhalted fuel s.1 q).mono (Nat.zero_le 1)
          · exact fun a => ih.bind_done fun q hq => hq.bind_done

/-! ## How many indices a group takes -/

variable {ps : List (Program I.withCursor β)} {ns : List Nat} {s : Nat × σ}

/-- One turn: what a program takes off the cursor, it has less to take. -/
theorem stepAt_takes (hps : List.Forall₂ (·.TakesAtMost h kept ·) ps ns) (hs : kept s.2) (i : Nat) :
    ∃ ns', List.Forall₂ (·.TakesAtMost h kept ·) (stepAt h.withCursor i ps s).1 ns' ∧
      (stepAt h.withCursor i ps s).2.1 + ns'.sum = s.1 + ns.sum := by
  induction hps generalizing i with
  | nil => exact ⟨[], by cases i <;> exact .nil, by cases i <;> rfl⟩
  | @cons p n ps ns hp hps ih =>
    cases i with
    | zero =>
      cases p with
      | done a => exact ⟨n :: ns, .cons trivial hps, rfl⟩
      | call c next =>
        cases c with
        | take =>
          refine ⟨(n - 1) :: ns, .cons (hp.2 s.1) hps, ?_⟩
          have hone : 0 < n := hp.1
          show (s.1 + 1) + ((n - 1) :: ns).sum = s.1 + (n :: ns).sum
          rw [List.sum_cons, List.sum_cons]
          omega
        | other c => exact ⟨n :: ns, .cons (hp s.2 hs) hps, rfl⟩
    | succ i =>
      obtain ⟨ns', hps', hsum⟩ := ih i
      refine ⟨n :: ns', .cons hp hps', ?_⟩
      show (stepAt h.withCursor i ps s).2.1 + (n :: ns').sum = s.1 + (n :: ns).sum
      rw [List.sum_cons, List.sum_cons]
      omega

/-- **From states of one kind on, the cursor moves no further than the programs can take it.** -/
theorem runAlong_takes (turns : List Nat) (hps : List.Forall₂ (·.TakesAtMost h kept ·) ps ns)
    (hkept : ∀ first, first <+: turns → kept (runAlong h.withCursor first ps s).2.2) :
    (runAlong h.withCursor turns ps s).2.1 ≤ s.1 + ns.sum := by
  induction turns generalizing ps ns s with
  | nil => exact Nat.le_add_right _ _
  | cons i turns ih =>
    have hnow : kept s.2 := hkept [] List.nil_prefix
    obtain ⟨ns', hps', hsum⟩ := stepAt_takes hps hnow i
    rw [← hsum]
    exact ih hps' fun first hfirst => hkept (i :: first) (List.cons_prefix_cons.2 ⟨rfl, hfirst⟩)

end Takes

/-! ## A pool -/

/-- The workers of a pool before their first calls. -/
def crew (count workers : Nat) (halted : Program I Bool) (job : Nat → Program I α) :
    List (Program I.withCursor (List (Nat × α))) :=
  List.replicate (poolSize count workers) (worker count halted job (count + 1))

/-- From the moment on that is reached by the first of these turns, the work of a pool is halted: all states are
    of a kind in which a look finds that it is. -/
def HaltedFrom (h : Handler I σ) (halted : Program I Bool) (turns before : List Nat)
    (ps : List (Program I.withCursor β)) (s : Nat × σ) : Prop :=
  ∃ kept : σ → Prop, halted.Learns h kept (· = true) ∧
    ∀ later, before <+: later → later <+: turns → kept (runAlong h.withCursor later ps s).2.2

variable {halted : Program I Bool} {job : Nat → Program I α} {count workers : Nat} {turns before : List Nat}

/-- After the work is halted, every worker takes at most one more index. -/
theorem HaltedFrom.cursor_le {s : Nat × σ}
    (hhalted : HaltedFrom h halted turns before (crew count workers halted job) s) (hbefore : before <+: turns) :
    (runAlong h.withCursor turns (crew count workers halted job) s).2.1 ≤
      (runAlong h.withCursor before (crew count workers halted job) s).2.1 + poolSize count workers := by
  obtain ⟨kept, hlearns, hkept⟩ := hhalted
  obtain ⟨after, rfl⟩ := hbefore
  have hcrew : ∀ p ∈ crew count workers halted job, p.Throughout h.withCursor (·.TakesAtMost h kept 1) := by
    intro p hp
    rw [List.eq_of_mem_replicate hp]
    exact worker_takes_one hlearns _
  have hlength := length_runAlong (h := h.withCursor) before (crew count workers halted job) s
  rw [crew, List.length_replicate, ← crew] at hlength
  have hones : List.Forall₂ (·.TakesAtMost h kept ·) (runAlong h.withCursor before (crew count workers halted job) s).1
      (List.replicate (poolSize count workers) 1) := by
    refine List.forall₂_iff_get.2 ⟨by rw [hlength, List.length_replicate], fun i hi _ => ?_⟩
    rw [List.get_eq_getElem, List.get_eq_getElem, List.getElem_replicate]
    exact (throughout_runAlong hcrew before s _ (List.getElem_mem hi)).now
  have hmoved := runAlong_takes (s := (runAlong h.withCursor before (crew count workers halted job) s).2) after hones
    fun first hfirst => by
      have hlater := hkept (before ++ first) (List.prefix_append ..) ((List.prefix_append_right_inj _).2 hfirst)
      rwa [runAlong_append] at hlater
  rw [List.sum_replicate_nat, Nat.mul_one] at hmoved
  rwa [runAlong_append]

/-- **A pool loses no job and repeats none**, along every schedule, with any number of workers, and whatever the
    looks find. The jobs that are done are those below some `k`, each once. Their results are at their numbers, and
    nothing is at the others. If no look finds the work halted, all are done. And from a moment on from which it is
    halted, no more jobs are started than there are workers. -/
theorem runBounded_starts_first_jobs (h : Handler I σ) (schedule : List Nat) (count workers : Nat)
    (halted : Program I Bool) (job : Nat → Program I α) (s : σ) :
    ∃ turns, WholeRun h.withCursor schedule (crew count workers halted job) (0, s) turns ∧
    ∃ looks jobs log, PoolRun h count halted job s looks jobs log
      (runBounded h schedule count workers halted job s).1 (runBounded h schedule count workers halted job s).2 ∧
    ∃ k ≤ count, (jobs.map (·.index)).Perm (List.range k) ∧
      (runBounded h schedule count workers halted job s).1.length = count ∧
      (∀ j ∈ jobs, (runBounded h schedule count workers halted job s).1[j.index]? = some (some j.result)) ∧
      (∀ i, k ≤ i → i < count → (runBounded h schedule count workers halted job s).1[i]? = some none) ∧
      ((∀ l ∈ looks, l.halted = false) → k = count) ∧
      ∀ before, before <+: turns → HaltedFrom h halted turns before (crew count workers halted job) (0, s) →
        k ≤ min (runAlong h.withCursor before (crew count workers halted job) (0, s)).2.1 count +
          poolSize count workers := by
  obtain ⟨turns, hwhole⟩ := exists_wholeRun (h := h.withCursor) schedule (crew count workers halted job) (0, s)
  obtain ⟨looks, jobs, log, hrun, hnumbers⟩ := runBounded_ends_cursor schedule count workers halted job s (h := h)
  refine ⟨turns, hwhole, looks, jobs, log, hrun, _, Nat.min_le_right _ _, hnumbers, hrun.length_results,
    fun j hj => hrun.getElem?_results hj, ?_, ?_, ?_⟩
  · intro i hk hi
    have hlt : i < (runBounded h schedule count workers halted job s).1.length := hrun.length_results.symm ▸ hi
    cases hresult : (runBounded h schedule count workers halted job s).1[i] with
    | none => rw [List.getElem?_eq_getElem hlt, hresult]
    | some a =>
      -- a job that is done has one of the first numbers
      obtain ⟨j, hj, rfl, -⟩ := hrun.exists_job (List.getElem?_eq_some_iff.2 ⟨hlt, hresult⟩)
      exact absurd hk (Nat.not_le.2 (List.mem_range.1 (hnumbers.mem_iff.1 (List.mem_map_of_mem hj))))
  · intro hgoing
    obtain ⟨n, hn, hperm, hhalted⟩ := hrun.numbers
    have hsame := (hperm.symm.trans hnumbers).length_eq
    rw [List.length_range, List.length_range] at hsame
    rw [← hsame]
    refine Nat.le_antisymm hn (Nat.not_lt.1 fun hlt => ?_)
    obtain ⟨l, hl, hfound⟩ := hhalted hlt
    exact Bool.false_ne_true ((hgoing l hl).symm.trans hfound)
  · intro before hbefore hhalted
    have hmoved := hhalted.cursor_le hbefore
    rw [hwhole.ended] at hmoved
    have hlast : (runTogether h.withCursor schedule (crew count workers halted job) (0, s)).2.1 ≤ _ := hmoved
    rw [← crew]
    omega

end TreeImage
