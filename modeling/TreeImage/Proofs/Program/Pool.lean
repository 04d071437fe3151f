import Mathlib.Data.List.Basic
import TreeImage.Proofs.Program.Discipline

set_option autoImplicit false

/-! # Pools of obedient workers

The jobs of a pool obey a discipline on the state they share; the cursor is nobody's. `runBounded_obeys`
turns what every single job guarantees into what the results of the pool guarantee, for every number of
workers and every schedule. -/

namespace TreeImage

variable {I : Interface} {α β σ κ : Type} {h : Handler I σ}

/-! ## The shared cursor -/

/-- The discipline of the workers of a pool. Any of them may move the cursor. -/
def Discipline.withCursor (D : Discipline h κ) : Discipline h.withCursor κ where
  fit k s := D.fit k s.2
  rely k s s' := D.rely k s.2 s'.2
  may k k' (c : PoolCall I) s :=
    match c with
    | .take => k' = k
    | .other c => D.may k k' c s.2
  apart := D.apart
  rely_refl _ _ := D.rely_refl _ _
  rely_trans := D.rely_trans
  apart_symm := D.apart_symm
  spares {k k' l c s} hmay hfit hfit' hfitl hapart := by
    cases c with
    | take =>
      obtain rfl : k' = k := hmay
      exact ⟨D.rely_refl _ _, hfitl, hapart⟩
    | other c => exact D.spares hmay hfit hfit' hfitl hapart

variable {D : Discipline h κ} {post : α → κ → σ → Prop} {k : κ}

theorem Discipline.reach_of_withCursor {s s' : Nat × σ} (hreach : D.withCursor.Reach s s') :
    D.Reach s.2 s'.2 := by
  induction hreach with
  | refl => exact .refl
  | tail _ hstep ih =>
    obtain ⟨k, k', c, hmay, hfit, hfit', rfl⟩ := hstep
    cases c with
    | take => exact ih
    | other c => exact ih.tail ⟨k, k', c, hmay, hfit, hfit', rfl⟩

theorem Program.Obeys.inPool {p : Program I α} {s : Nat × σ} (hp : p.Obeys D post k s.2) :
    p.inPool.Obeys D.withCursor (fun a k s => post a k s.2) k s := by
  induction p generalizing k s with
  | done a => exact hp
  | call c next ih =>
    intro s' hrely hfit
    obtain ⟨k', hmay, hfit', hnext⟩ := hp s'.2 hrely hfit
    exact ⟨k', hmay, hfit', ih _ hnext⟩

/-! ## Workers -/

section Pool

variable {halted : Program I Bool} {job : Nat → Program I α} {idle : κ → Prop}
  {result : Nat → α → κ → Prop} {count : Nat}

/-- What a pool needs of its jobs: they start and end with an idle claim, and what was achieved before
    is not lost. -/
structure Workable (D : Discipline h κ) (halted : Program I Bool) (job : Nat → Program I α)
    (idle : κ → Prop) (result : Nat → α → κ → Prop) : Prop where
  halted : ∀ k s, idle k → halted.Obeys D (fun _ k' _ => k' = k) k s
  job : ∀ i k s, idle k → (job i).Obeys D
    (fun a k' _ => idle k' ∧ result i a k' ∧ ∀ j b, result j b k → result j b k') k s

theorem Workable.worker (hwork : Workable D halted job idle result) (fuel : Nat) {s : Nat × σ}
    (hidle : idle k) :
    (worker count halted job fuel).Obeys D.withCursor
      (fun results k' _ => (∀ x ∈ results, result x.1 x.2 k') ∧ ∀ j b, result j b k → result j b k')
      k s := by
  induction fuel generalizing k s with
  | zero => exact ⟨fun _ hx => absurd hx List.not_mem_nil, fun _ _ hr => hr⟩
  | succ fuel ih =>
    refine (hwork.halted k s.2 hidle).inPool.bind ?_
    rintro stop k' s rfl
    cases stop with
    | true => exact ⟨fun _ hx => absurd hx List.not_mem_nil, fun _ _ hr => hr⟩
    | false =>
      intro s' _ hfit
      refine ⟨k', rfl, hfit, ?_⟩
      show (if count ≤ s'.1 then Program.done []
        else (job s'.1).inPool.bind fun a =>
          (TreeImage.worker count halted job fuel).bind fun rest => .done ((s'.1, a) :: rest)).Obeys
        D.withCursor _ k' (s'.1 + 1, s'.2)
      split
      · exact ⟨fun _ hx => absurd hx List.not_mem_nil, fun _ _ hr => hr⟩
      · refine (Program.Obeys.inPool (s := (s'.1 + 1, s'.2)) (hwork.job s'.1 k' s'.2 hidle)).bind ?_
        rintro a l _ ⟨hidle', hresult, hkept⟩
        refine (ih hidle').bind ?_
        rintro rest m _ ⟨hrest, hkept'⟩
        exact ⟨List.forall_mem_cons.2 ⟨hkept' _ _ hresult, hrest⟩,
          fun j b hr => hkept' j b (hkept j b hr)⟩

theorem mem_of_resultAt {results : List (Nat × α)} {i : Nat} {a : α}
    (h : resultAt results i = some a) : (i, a) ∈ results := by
  obtain ⟨before, after, hsplit, -⟩ := List.lookup_eq_some_iff.1 h
  exact hsplit ▸ List.mem_append_right _ (List.mem_cons_self ..)

theorem isSome_resultAt {results : List (Nat × α)} {i : Nat} {a : α} (h : (i, a) ∈ results) :
    (resultAt results i).isSome :=
  List.lookup_isSome_iff.2 ⟨_, h, beq_self_eq_true i⟩

/-- A result that is collected for an index was brought back by one of the workers. -/
theorem exists_batch_of_collected {batches : List (List (Nat × α))} {i : Nat} {a : α}
    (h : ((List.range count).map (resultAt batches.flatten))[i]? = some (some a)) :
    ∃ (n : Nat) (hn : n < batches.length), (i, a) ∈ batches[n] := by
  rw [List.getElem?_map] at h
  obtain ⟨j, hj, hlookup⟩ := Option.map_eq_some_iff.1 h
  obtain ⟨hlt, rfl⟩ := List.getElem?_eq_some_iff.1 hj
  rw [List.getElem_range] at hlookup
  obtain ⟨batch, hbatch, hin⟩ := List.mem_flatten.1 (mem_of_resultAt hlookup)
  obtain ⟨n, hn, rfl⟩ := List.getElem_of_mem hbatch
  exact ⟨n, hn, hin⟩

/-- **What the jobs of a pool guarantee, the pool guarantees**, along every schedule. With one worker no
    claim has to bear another beside it. -/
theorem runBounded_obeys (hwork : Workable D halted job idle result) (schedule : List Nat)
    (count workers : Nat) {s : σ} (hidle : idle k) (hfit : D.fit k s)
    (hapart : 1 < workers → D.apart k k) :
    (runBounded h schedule count workers halted job s).1.length = count ∧
      D.Reach s (runBounded h schedule count workers halted job s).2 ∧
      ∀ i a, (runBounded h schedule count workers halted job s).1[i]? = some (some a) →
        ∃ k', result i a k' ∧ D.fit k' (runBounded h schedule count workers halted job s).2 := by
  have hteam : Team D.withCursor (fun results k' => ∀ x ∈ results, result x.1 x.2 k')
      (List.replicate (poolSize count workers) (worker count halted job (count + 1)))
      (List.replicate (poolSize count workers) k) (0, s) := by
    constructor
    · rw [List.forall₂_iff_get]
      refine ⟨by rw [List.length_replicate, List.length_replicate], ?_⟩
      intro i _ _
      rw [List.get_eq_getElem, List.get_eq_getElem, List.getElem_replicate, List.getElem_replicate]
      exact ⟨(hwork.worker _ hidle).imp fun _ _ _ hresults => hresults.1, hfit⟩
    · rw [List.pairwise_replicate]
      by_cases hone : 1 < workers
      · exact .inr (hapart hone)
      -- a pool of one has no two claims to hold apart
      · left
        rw [poolSize]
        omega
  obtain ⟨ks, hends, hpath⟩ := runTogether_obeys schedule hteam
  refine ⟨?_, D.reach_of_withCursor hpath.reach, ?_⟩
  · show ((List.range count).map _).length = count
    rw [List.length_map, List.length_range]
  · intro i a hi
    obtain ⟨n, hn, hmem⟩ := exists_batch_of_collected hi
    obtain ⟨hlength, hall⟩ := List.forall₂_iff_get.1 hends
    obtain ⟨hresults, hfit'⟩ := hall n hn (hlength ▸ hn)
    exact ⟨ks.get ⟨n, hlength ▸ hn⟩, hresults _ hmem, hfit'⟩

end Pool

end TreeImage
