import TreeImage.Proofs.Program.Pool

set_option autoImplicit false

/-! # Pools of one worker

A pool of one worker does its jobs in order, whatever the schedule, until it is halted. So what holds at
the start, and is kept by looking whether the pool is halted and by doing the next job, holds at the end
(`runBounded_in_order`). -/

namespace TreeImage

variable {I : Interface} {α σ : Type} {h : Handler I σ}

/-! ## A group of one -/

theorem Program.run_step (p : Program I α) (s : σ) : (p.step h s).1.run h (p.step h s).2 = p.run h s := by
  cases p <;> rfl

theorem runTogether_singleton (schedule : List Nat) (p : Program I α) (s : σ) :
    runTogether h schedule [p] s = ([(p.run h s).1], (p.run h s).2) := by
  induction schedule generalizing p s with
  | nil => rfl
  | cons i schedule ih =>
    cases i with
    | zero =>
      rw [runTogether, stepAt, ih, Program.run_step]
    | succ i =>
      have hpause : stepAt h (i + 1) [p] s = ([p], s) := by cases i <;> rfl
      rw [runTogether, hpause, ih]

theorem Program.run_inPool (p : Program I α) (cursor : Nat) (s : σ) :
    p.inPool.run h.withCursor (cursor, s) = ((p.run h s).1, cursor, (p.run h s).2) := by
  induction p generalizing s with
  | done a => rfl
  | call c next ih => exact ih _ _

theorem poolSize_of_le_one {count workers : Nat} (hworkers : workers ≤ 1) : poolSize count workers = 1 := by
  rw [poolSize]
  omega

/-! ## Jobs in order -/

section InOrder

variable {halted : Program I Bool} {job : Nat → Program I α} {count : Nat}
  {Inv : List α → σ → Prop}

/-- A pool of one worker does the same along every schedule. -/
theorem runBounded_of_le_one {workers : Nat} (hworkers : workers ≤ 1) (schedule schedule' : List Nat) (s : σ) :
    runBounded h schedule count workers halted job s = runBounded h schedule' count workers halted job s := by
  simp only [runBounded, poolSize_of_le_one hworkers, List.replicate_one, runTogether_singleton]

/-- `Inv as s` holds after the first jobs, where `as` are their results: it is kept by looking whether the
    pool is halted, and by the next job, which starts where a look found that it is not. -/
structure KeptInOrder (h : Handler I σ) (look : Program I Bool) (job : Nat → Program I α) (count : Nat)
    (Inv : List α → σ → Prop) : Prop where
  halted : ∀ as s, Inv as s → Inv as (look.run h s).2
  job : ∀ as s, Inv as s → as.length < count → (∃ t, look.run h t = (false, s)) →
    Inv (as ++ [((job as.length).run h s).1]) ((job as.length).run h s).2

/-- One round of a worker that runs alone. -/
theorem run_worker_succ (fuel cursor : Nat) (s : σ) :
    (worker count halted job (fuel + 1)).run h.withCursor (cursor, s) =
      let t := (halted.run h s).2
      if (halted.run h s).1 then ([], cursor, t)
      else if count ≤ cursor then ([], cursor + 1, t)
      else
        let done := (job cursor).run h t
        let rest := (worker count halted job fuel).run h.withCursor (cursor + 1, done.2)
        ((cursor, done.1) :: rest.1, rest.2) := by
  rw [worker, Program.run_bind, Program.run_inPool]
  dsimp only
  split
  · rfl
  · show Program.run h.withCursor (if count ≤ cursor then .done [] else
      (job cursor).inPool.bind fun a => (worker count halted job fuel).bind fun rest =>
        .done ((cursor, a) :: rest)) (cursor + 1, (halted.run h s).2) = _
    split
    · rfl
    · rw [Program.run_bind, Program.run_inPool, Program.run_bind]
      rfl

/-- The results of a worker that starts behind the jobs of `as`, and why it stopped. -/
theorem worker_in_order (hkept : KeptInOrder h halted job count Inv) (fuel : Nat) {as : List α} {s : σ}
    (hfuel : as.length + fuel = count + 1) (hstart : as.length ≤ count) (hinv : Inv as s)
    {batch : List (Nat × α)} {cursor : Nat} {s' : σ}
    (hrun : (worker count halted job fuel).run h.withCursor (as.length, s) = (batch, cursor, s')) :
    ∃ more : List α, Inv (as ++ more) s' ∧ as.length + more.length ≤ count ∧
      (∀ i, resultAt batch (as.length + i) = more[i]?) ∧
      (as.length + more.length < count → ∃ t, Inv (as ++ more) t ∧ (halted.run h t).1 = true) := by
  induction fuel generalizing as s batch with
  | zero => omega
  | succ fuel ih =>
    have hlooked := hkept.halted as s hinv
    rw [run_worker_succ] at hrun
    dsimp only at hrun
    split at hrun
    · next hstop =>
      cases hrun
      rw [← as.append_nil] at hlooked
      exact ⟨[], hlooked, hstart, fun _ => rfl, fun _ => ⟨s, by rwa [as.append_nil], hstop⟩⟩
    · next hgoes =>
      split at hrun
      · next hend =>
        cases hrun
        rw [← as.append_nil] at hlooked
        exact ⟨[], hlooked, hstart, fun _ => rfl, fun hlt => absurd hlt (Nat.not_lt.2 hend)⟩
      · next hgo =>
        have hnext := hkept.job as _ hlooked (Nat.not_le.1 hgo)
          ⟨s, Prod.ext (Bool.eq_false_iff.2 hgoes) rfl⟩
        cases hrest : (worker count halted job fuel).run h.withCursor
          (as.length + 1, ((job as.length).run h (halted.run h s).2).2) with
        | mk rest last =>
          rw [hrest] at hrun
          cases hrun
          have hlength : (as ++ [((job as.length).run h (halted.run h s).2).1]).length = as.length + 1 := by
            simp
          rw [← hlength] at hrest
          obtain ⟨more, hend, hcount, hresults, hstopped⟩ :=
            ih (by omega) (by omega) hnext hrest
          rw [List.append_assoc, List.singleton_append] at hend hstopped
          rw [hlength] at hcount hresults hstopped
          refine ⟨_ :: more, hend, by simp; omega, ?_, fun hlt => hstopped (by simp at hlt; omega)⟩
          intro i
          cases i with
          | zero => simp [resultAt]
          | succ i =>
            have hne : (as.length + (i + 1) == as.length) = false := by simp
            rw [resultAt, List.lookup_cons, hne, List.getElem?_cons_succ, ← hresults i, Nat.add_assoc,
              Nat.add_comm 1 i]
            rfl

/-- **What every job of a pool of one worker keeps, the pool keeps**, along every schedule. The results are
    those of the first jobs, and of all of them unless the pool was halted. -/
theorem runBounded_in_order (hkept : KeptInOrder h halted job count Inv) (schedule : List Nat)
    {workers : Nat} (hworkers : workers ≤ 1) {s : σ} (hinv : Inv [] s) :
    ∃ as : List α, Inv as (runBounded h schedule count workers halted job s).2 ∧ as.length ≤ count ∧
      (runBounded h schedule count workers halted job s).1 = (List.range count).map (as[·]?) ∧
      (as.length < count → ∃ t, Inv as t ∧ (halted.run h t).1 = true) := by
  cases hrun : (worker count halted job (count + 1)).run h.withCursor (0, s) with
  | mk batch last =>
    obtain ⟨cursor, s'⟩ := last
    obtain ⟨as, hend, hlength, hresults, hstopped⟩ :=
      worker_in_order hkept (count + 1) (show ([] : List α).length + (count + 1) = count + 1 by simp)
        (Nat.zero_le _) hinv hrun
    have hpool : runBounded h schedule count workers halted job s =
        ((List.range count).map (resultAt batch), s') := by
      rw [runBounded, poolSize_of_le_one hworkers]
      simp [runTogether_singleton, hrun]
    simp only [List.nil_append, List.length_nil, Nat.zero_add] at *
    rw [hpool]
    exact ⟨as, hend, hlength, List.map_congr_left fun i _ => hresults i, hstopped⟩

end InOrder

end TreeImage
