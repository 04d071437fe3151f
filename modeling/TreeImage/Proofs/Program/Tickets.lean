import Mathlib.Logic.Function.Basic
import TreeImage.Proofs.Program.Pool

set_option autoImplicit false

/-! # Pools that run every job once

The cursor of a pool hands every index out once. So each job can have a claim of its own from the start,
which waits at the cursor until a worker takes the index (`Discipline.ticketed`). If the pool is never
halted, all jobs are done in the end, and each as it would be if its claim were the only one
(`runBounded_ticketed`). -/

namespace TreeImage

variable {I : Interface} {α β σ κ : Type} {h : Handler I σ}

/-! ## Claims by index -/

/-- The claims of a worker, by the jobs that they are for. -/
abbrev Tickets (κ : Type) := Nat → Option κ

/-- What the claims of a worker say of the cursor and the state: the jobs ahead of the cursor still have
    the claims that they were granted. -/
structure Tickets.Fits (D : Discipline h κ) (grant : Nat → κ) (K : Tickets κ) (s : Nat × σ) : Prop where
  held : ∀ i k, K i = some k → i < s.1 ∧ D.fit k s.2
  ahead : ∀ i, s.1 ≤ i → D.fit (grant i) s.2
  apart : ∀ i j k l, K i = some k → K j = some l → i ≠ j → D.apart k l
  spare : ∀ i j k, K i = some k → s.1 ≤ j → D.apart k (grant j)

/-- The claims of two workers are for different jobs and are apart. -/
def Tickets.Apart (D : Discipline h κ) (K L : Tickets κ) : Prop :=
  ∀ i j k l, K i = some k → L j = some l → i ≠ j ∧ D.apart k l

/-- The call disturbs nobody and needs no claim. -/
def Discipline.Harmless (D : Discipline h κ) (c : I.Call) : Prop :=
  ∀ k s, D.fit k s → D.may k k c s ∧ D.fit k (h c s).2 ∧ D.rely k s (h c s).2

namespace Tickets

variable {D : Discipline h κ} {grant : Nat → κ} {K L : Tickets κ} {s : Nat × σ} {i : Nat} {k k' : κ}
  {c : I.Call}

theorem update_eq_some {j : Nat} {l : κ} (hl : Function.update K i (some k) j = some l) :
    j = i ∧ l = k ∨ j ≠ i ∧ K j = some l := by
  by_cases hj : j = i
  · subst hj
    simp only [Function.update_self, Option.some.injEq] at hl
    exact .inl ⟨rfl, hl.symm⟩
  · rw [Function.update_of_ne hj] at hl
    exact .inr ⟨hj, hl⟩

/-- The next job gets its claim. -/
theorem Fits.take (hgrant : ∀ i j, i ≠ j → D.apart (grant i) (grant j)) (hfit : Fits D grant K s) :
    Fits D grant (Function.update K s.1 (some (grant s.1))) (s.1 + 1, s.2) := by
  constructor
  · intro i k hk
    rcases update_eq_some hk with ⟨rfl, rfl⟩ | ⟨-, hk⟩
    · exact ⟨Nat.lt_succ_self _, hfit.ahead _ (Nat.le_refl _)⟩
    · obtain ⟨hlt, hk⟩ := hfit.held i k hk
      exact ⟨Nat.lt_succ_of_lt hlt, hk⟩
  · intro i hi
    exact hfit.ahead i (Nat.le_of_succ_le hi)
  · intro i j k l hk hl hne
    rcases update_eq_some hk with ⟨rfl, rfl⟩ | ⟨-, hk⟩
    · rcases update_eq_some hl with ⟨rfl, rfl⟩ | ⟨-, hl⟩
      · exact absurd rfl hne
      · exact D.apart_symm (hfit.spare j s.1 l hl (Nat.le_refl _))
    · rcases update_eq_some hl with ⟨rfl, rfl⟩ | ⟨-, hl⟩
      · exact hfit.spare i s.1 k hk (Nat.le_refl _)
      · exact hfit.apart i j k l hk hl hne
  · intro i j k hk hj
    rcases update_eq_some hk with ⟨rfl, rfl⟩ | ⟨-, hk⟩
    · exact hgrant s.1 j (by omega)
    · exact hfit.spare i j k hk (Nat.le_of_succ_le hj)

/-- What another worker holds is as before when the next job gets its claim. -/
theorem Fits.taken (hfit : Fits D grant L s) : Fits D grant L (s.1 + 1, s.2) :=
  ⟨fun i k hk => ⟨Nat.lt_succ_of_lt (hfit.held i k hk).1, (hfit.held i k hk).2⟩,
    fun i hi => hfit.ahead i (Nat.le_of_succ_le hi), hfit.apart,
    fun i j k hk hj => hfit.spare i j k hk (Nat.le_of_succ_le hj)⟩

/-- A call that is made for one job, as its own worker sees it. -/
theorem Fits.call (hfit : Fits D grant K s) (hk : K i = some k) (hmay : D.may k k' c s.2)
    (hfit' : D.fit k' (h c s.2).2) :
    Fits D grant (Function.update K i (some k')) (s.1, (h c s.2).2) := by
  have hspares := fun l => D.spares (l := l) hmay (hfit.held i k hk).2 hfit'
  constructor
  · intro j l hl
    rcases update_eq_some hl with ⟨rfl, rfl⟩ | ⟨hne, hl⟩
    · exact ⟨(hfit.held j k hk).1, hfit'⟩
    · obtain ⟨hlt, hfitl⟩ := hfit.held j l hl
      exact ⟨hlt, (hspares l hfitl (hfit.apart i j k l hk hl (Ne.symm hne))).2.1⟩
  · intro j hj
    exact (hspares _ (hfit.ahead j hj) (hfit.spare i j k hk hj)).2.1
  · intro j j' l m hl hm hne
    rcases update_eq_some hl with ⟨rfl, rfl⟩ | ⟨-, hl'⟩
    · rcases update_eq_some hm with ⟨rfl, rfl⟩ | ⟨-, hm⟩
      · exact absurd rfl hne
      · exact (hspares m (hfit.held j' m hm).2 (hfit.apart j j' k m hk hm hne)).2.2
    · rcases update_eq_some hm with ⟨rfl, rfl⟩ | ⟨-, hm⟩
      · exact D.apart_symm (hspares l (hfit.held j l hl').2 (hfit.apart _ j k l hk hl' (Ne.symm hne))).2.2
      · exact hfit.apart j j' l m hl' hm hne
  · intro j j' l hl hj'
    rcases update_eq_some hl with ⟨rfl, rfl⟩ | ⟨-, hl⟩
    · exact (hspares _ (hfit.ahead j' hj') (hfit.spare j j' k hk hj')).2.2
    · exact hfit.spare j j' l hl hj'

/-- A call that is made for one job, as the other workers see it. -/
theorem Fits.called (hfit : Fits D grant K s) (hother : Fits D grant L s) (hapart : Apart D K L)
    (hk : K i = some k) (hmay : D.may k k' c s.2) (hfit' : D.fit k' (h c s.2).2) :
    (∀ j l, L j = some l → D.rely l s.2 (h c s.2).2) ∧ Fits D grant L (s.1, (h c s.2).2) ∧
      Apart D (Function.update K i (some k')) L := by
  have hspares := fun l => D.spares (l := l) hmay (hfit.held i k hk).2 hfit'
  have hheld : ∀ j l, L j = some l →
      D.rely l s.2 (h c s.2).2 ∧ D.fit l (h c s.2).2 ∧ D.apart k' l := fun j l hl =>
    hspares l (hother.held j l hl).2 (hapart i j k l hk hl).2
  refine ⟨fun j l hl => (hheld j l hl).1, ⟨?_, ?_, hother.apart, hother.spare⟩, ?_⟩
  · intro j l hl
    exact ⟨(hother.held j l hl).1, (hheld j l hl).2.1⟩
  · intro j hj
    exact (hspares _ (hfit.ahead j hj) (hfit.spare i j k hk hj)).2.1
  · intro j j' m l hm hl
    rcases update_eq_some hm with ⟨rfl, rfl⟩ | ⟨-, hm⟩
    · exact ⟨(hapart j j' k l hk hl).1, (hheld j' l hl).2.2⟩
    · exact hapart j j' m l hm hl

/-- A harmless call. -/
theorem Fits.harmless (hfit : Fits D grant K s) (hc : D.Harmless c) :
    Fits D grant K (s.1, (h c s.2).2) :=
  ⟨fun i k hk => ⟨(hfit.held i k hk).1, (hc k s.2 (hfit.held i k hk).2).2.1⟩,
    fun i hi => (hc _ s.2 (hfit.ahead i hi)).2.1, hfit.apart, hfit.spare⟩

end Tickets

/-! ## The discipline -/

section Ticketed

variable (D : Discipline h κ) (grant : Nat → κ)

/-- The discipline of workers that take a claim with every index. -/
def Discipline.ticketed : Discipline h.withCursor (Tickets κ) where
  fit K s := Tickets.Fits D grant K s
  rely K s s' := ∀ i k, K i = some k → D.rely k s.2 s'.2
  may K K' (c : PoolCall I) s :=
    match c with
    | .take => K' = Function.update K s.1 (some (grant s.1))
    | .other c => D.Harmless c ∧ K' = K ∨ ∃ i k k', K i = some k ∧ D.may k k' c s.2 ∧
        D.fit k' (h c s.2).2 ∧ K' = Function.update K i (some k')
  apart := Tickets.Apart D
  rely_refl _ _ _ _ _ := D.rely_refl _ _
  rely_trans hrely hrely' i k hk := D.rely_trans (hrely i k hk) (hrely' i k hk)
  apart_symm hapart i j k l hk hl := ⟨(hapart j i l k hl hk).1.symm, D.apart_symm (hapart j i l k hl hk).2⟩
  spares {K K' L c s} hmay hfit _ hother hapart := by
    cases c with
    | take =>
      obtain rfl : K' = Function.update K s.1 (some (grant s.1)) := hmay
      refine ⟨fun _ _ _ => D.rely_refl _ _, hother.taken, ?_⟩
      intro i j k l hk hl
      rcases Tickets.update_eq_some hk with ⟨rfl, rfl⟩ | ⟨-, hk⟩
      · exact ⟨(Nat.ne_of_lt (hother.held j l hl).1).symm, D.apart_symm (hother.spare j s.1 l hl (Nat.le_refl _))⟩
      · exact hapart i j k l hk hl
    | other c =>
      rcases hmay with ⟨hc, rfl⟩ | ⟨i, k, k', hk, hmay, hfit', rfl⟩
      · exact ⟨fun j l hl => (hc l s.2 (hother.held j l hl).2).2.2, hother.harmless hc, hapart⟩
      · exact hfit.called hother hapart hk hmay hfit'

variable {D grant} {K : Tickets κ} {s s' : Nat × σ} {i : Nat} {k : κ}

/-- Some claim fits every state that a worker meets. -/
theorem Discipline.reach_of_ticketed (hreach : (D.ticketed grant).Reach s s') :
    D.Reach s.2 s'.2 := by
  induction hreach with
  | refl => exact .refl
  | tail _ hstep ih =>
    obtain ⟨K, K', c, hmay, hfit, hfit', rfl⟩ := hstep
    cases c with
    | take => exact ih
    | other c =>
      rcases hmay with ⟨hc, -⟩ | ⟨i, k, k', hk, hmay, hfitk, -⟩
      · have hahead := hfit.ahead _ (Nat.le_refl _)
        obtain ⟨hmay, hfitc, -⟩ := hc _ _ hahead
        exact ih.tail ⟨_, _, c, hmay, hahead, hfitc, rfl⟩
      · exact ih.tail ⟨k, k', c, hmay, (hfit.held i k hk).2, hfitk, rfl⟩

/-- A program that obeys with the claim of a job, run by the worker that holds this claim. -/
theorem Program.Obeys.ticketed {p : Program I α} {post : α → κ → σ → Prop}
    (hp : p.Obeys D post k s.2) (hk : K i = some k) :
    p.inPool.Obeys (D.ticketed grant)
      (fun a K' s' => ∃ k', K' = Function.update K i (some k') ∧ post a k' s'.2) K s := by
  induction p generalizing k K s with
  | done a => exact ⟨k, by rw [← hk, Function.update_eq_self], hp⟩
  | call c next ih =>
    intro s' hrely hfit
    obtain ⟨k', hmay, hfit', hnext⟩ := hp s'.2 (hrely i k hk) (hfit.held i k hk).2
    have hupdated : Function.update K i (some k') i = some k' := Function.update_self ..
    refine ⟨Function.update K i (some k'), .inr ⟨i, k, k', hk, hmay, hfit', rfl⟩,
      hfit.call hk hmay hfit', (ih _ (s := (s'.1, (h c s'.2).2)) hnext hupdated).imp ?_⟩
    rintro a K' _ ⟨l, rfl, hpost⟩
    exact ⟨l, Function.update_idem .., hpost⟩

/-! ## Workers -/

/-- The program makes harmless calls only, and ends with `a` in every state that a claim fits. -/
def Program.Says (D : Discipline h κ) (a : α) : Program I α → Prop
  | .done b => b = a
  | .call c next => D.Harmless c ∧ ∀ k s, D.fit k s → (next (h c s).1).Says D a

theorem Program.Says.obeys {p : Program I α} {a : α} (hp : p.Says D a) :
    p.inPool.Obeys (D.ticketed grant) (fun b K' _ => b = a ∧ K' = K) K s := by
  induction p generalizing s with
  | done b => exact ⟨hp, rfl⟩
  | call c next ih =>
    intro s' _ hfit
    exact ⟨K, .inl ⟨hp.1, rfl⟩, hfit.harmless hp.1,
      ih _ (s := (s'.1, (h c s'.2).2)) (hp.2 _ _ (hfit.ahead _ (Nat.le_refl _)))⟩

variable {halted : Program I Bool} {job : Nat → Program I α} {result : Nat → α → κ → Prop} {count : Nat}

/-- What a worker brought back: a result with a claim for each of its jobs. Its last index was none. -/
structure Worked (count : Nat) (result : Nat → α → κ → Prop) (K : Tickets κ) (batch : List (Nat × α))
    (K' : Tickets κ) : Prop where
  kept : ∀ i k, K i = some k → K' i = some k
  results : ∀ x ∈ batch, ∃ k, K' x.1 = some k ∧ result x.1 x.2 k
  done : ∀ i < count, (K' i).isSome → (K i).isSome ∨ ∃ a, (i, a) ∈ batch
  past : ∃ i, count ≤ i ∧ (K' i).isSome

/-- With enough fuel, a worker goes on until it gets an index that has no job. -/
theorem worker_ticketed (hgrant : ∀ i j, i ≠ j → D.apart (grant i) (grant j)) (hhalted : halted.Says D false)
    (hjob : ∀ i s, D.fit (grant i) s → (job i).Obeys D (fun a k _ => result i a k) (grant i) s)
    (fuel : Nat) (hfuel : fuel = count + 1 ∨ ∃ i, (K i).isSome ∧ count ≤ i + fuel) :
    (worker count halted job fuel).Obeys (D.ticketed grant)
      (fun batch K' _ => Worked count result K batch K') K s := by
  induction fuel generalizing K s with
  | zero =>
    obtain ⟨i, hi, hcount⟩ := hfuel.resolve_left (by omega)
    exact ⟨fun _ _ hk => hk, fun _ hx => absurd hx List.not_mem_nil, fun _ _ hk => .inl hk, i, hcount, hi⟩
  | succ fuel ih =>
    refine hhalted.obeys.bind ?_
    rintro _ K s ⟨rfl, rfl⟩
    intro s' _ hfit
    refine ⟨_, rfl, hfit.take hgrant, ?_⟩
    have htaken : Function.update K s'.1 (some (grant s'.1)) s'.1 = some (grant s'.1) :=
      Function.update_self ..
    have hother : ∀ i, i ≠ s'.1 → ∀ k, Function.update K s'.1 k i = K i := fun i hi k =>
      Function.update_of_ne hi ..
    have hnew : K s'.1 = none := by
      cases hheld : K s'.1 with
      | none => rfl
      | some k => exact absurd (hfit.held _ k hheld).1 (Nat.lt_irrefl _)
    show (if count ≤ s'.1 then Program.done []
      else (job s'.1).inPool.bind fun a =>
        (TreeImage.worker count halted job fuel).bind fun rest => .done ((s'.1, a) :: rest)).Obeys
      (D.ticketed grant) _ _ (s'.1 + 1, s'.2)
    split
    · next hend =>
      refine ⟨?_, fun _ hx => absurd hx List.not_mem_nil, ?_, s'.1, hend, by rw [htaken]; rfl⟩
      · intro i k hk
        rw [hother i (by rintro rfl; cases hnew.symm.trans hk), hk]
      · intro i hi hk
        rw [hother i (by omega)] at hk
        exact .inl hk
    · next hgo =>
      have hobeys := hjob s'.1 s'.2 (hfit.ahead _ (Nat.le_refl _))
      refine (Program.Obeys.ticketed (s := (s'.1 + 1, s'.2)) hobeys htaken).bind ?_
      rintro a _ t ⟨k, rfl, hresult⟩
      have hmine : Function.update K s'.1 (some k) s'.1 = some k := Function.update_self ..
      rw [Function.update_idem]
      have hfuel' : ∃ i, (Function.update K s'.1 (some k) i).isSome ∧ count ≤ i + fuel := by
        refine ⟨s'.1, by rw [hmine]; rfl, ?_⟩
        rcases hfuel with hfull | ⟨i, hi, hcount⟩
        · omega
        · obtain ⟨l, hl⟩ := Option.isSome_iff_exists.1 hi
          have := (hfit.held i l hl).1
          omega
      refine (ih (.inr hfuel')).bind ?_
      rintro rest K' _ ⟨hkept, hrest, hdone, hpast⟩
      refine ⟨?_, ?_, ?_, hpast⟩
      · intro i l hl
        refine hkept i l ?_
        rw [hother i (by rintro rfl; cases hnew.symm.trans hl), hl]
      · exact List.forall_mem_cons.2 ⟨⟨k, hkept _ _ hmine, hresult⟩, hrest⟩
      · intro i hi hk
        by_cases his : i = s'.1
        · subst his
          exact .inr ⟨a, List.mem_cons_self ..⟩
        · rcases hdone i hi hk with hold | ⟨b, hb⟩
          · rw [hother i his] at hold
            exact .inl hold
          · exact .inr ⟨b, List.mem_cons_of_mem _ hb⟩

/-- Every index behind the cursor is with some worker. -/
theorem covered_of_exchanges {Ks Ks' : List (Tickets κ)}
    (hpath : (D.ticketed grant).Exchanges Ks s Ks' s')
    (hcovered : ∀ i < s.1, ∃ K ∈ Ks, (K i).isSome) : ∀ i < s'.1, ∃ K ∈ Ks', (K i).isSome := by
  -- a worker that makes a call keeps what it holds
  have hstep : ∀ {l r : List (Tickets κ)} {K K' : Tickets κ} {i : Nat}, ((K i).isSome → (K' i).isSome) →
      (∃ L ∈ l ++ K :: r, (L i).isSome) → ∃ L ∈ l ++ K' :: r, (L i).isSome := by
    rintro l r K K' i hkeeps ⟨L, hL, hi⟩
    rcases List.mem_append.1 hL with hL | hL
    · exact ⟨L, List.mem_append_left _ hL, hi⟩
    · rcases List.mem_cons.1 hL with rfl | hL
      · exact ⟨K', List.mem_append_right _ (List.mem_cons_self ..), hkeeps hi⟩
      · exact ⟨L, List.mem_append_right _ (List.mem_cons_of_mem _ hL), hi⟩
  have hupdate : ∀ (K : Tickets κ) (j : Nat) (k : κ) (i : Nat), (K i).isSome →
      (Function.update K j (some k) i).isSome := by
    intro K j k i hi
    by_cases hij : i = j
    · subst hij
      rw [Function.update_self]
      rfl
    · rwa [Function.update_of_ne hij]
  induction hpath with
  | refl => exact hcovered
  | @tail l r K K' c t _ hmay _ _ ih =>
    cases c with
    | take =>
      obtain rfl : K' = Function.update K t.1 (some (grant t.1)) := hmay
      intro i hi
      by_cases hit : i = t.1
      · refine ⟨_, List.mem_append_right _ (List.mem_cons_self ..), ?_⟩
        rw [hit, Function.update_self]
        rfl
      · exact hstep (hupdate K t.1 _ i) (ih i (Nat.lt_of_le_of_ne (Nat.le_of_lt_succ hi) hit))
    | other c =>
      intro i hi
      rcases hmay with ⟨-, rfl⟩ | ⟨j, k, k', -, -, -, rfl⟩
      · exact ih i hi
      · exact hstep (hupdate K j k' i) (ih i hi)

theorem exists_map_some {os : List (Option α)} (h : ∀ o ∈ os, o.isSome) : ∃ as : List α, as.map some = os := by
  induction os with
  | nil => exact ⟨[], rfl⟩
  | cons o os ih =>
    obtain ⟨ho, hos⟩ := List.forall_mem_cons.1 h
    obtain ⟨a, rfl⟩ := Option.isSome_iff_exists.1 ho
    obtain ⟨as, rfl⟩ := ih hos
    exact ⟨a :: as, rfl⟩

/-- **A pool that is never halted does every job**, along every schedule, and the result of a job is what
    its own claim guarantees. -/
theorem runBounded_ticketed (hgrant : ∀ i j, i ≠ j → D.apart (grant i) (grant j))
    (hhalted : halted.Says D false)
    (hjob : ∀ i s, D.fit (grant i) s → (job i).Obeys D (fun a k _ => result i a k) (grant i) s)
    (schedule : List Nat) (count workers : Nat) {s : σ} (hfit : ∀ i, D.fit (grant i) s) :
    D.Reach s (runBounded h schedule count workers halted job s).2 ∧
      ∃ as : List α, (runBounded h schedule count workers halted job s).1 = as.map some ∧
        as.length = count ∧ ∀ i a, as[i]? = some a →
          ∃ k, result i a k ∧ D.fit k (runBounded h schedule count workers halted job s).2 := by
  have hstart : Tickets.Fits D grant (fun _ => none) (0, s) :=
    ⟨nofun, fun i _ => hfit i, nofun, nofun⟩
  have hteam : Team (D.ticketed grant) (Worked count result fun _ => none)
      (List.replicate (poolSize count workers) (worker count halted job (count + 1)))
      (List.replicate (poolSize count workers) fun _ => none) (0, s) := by
    constructor
    · rw [List.forall₂_iff_get]
      refine ⟨by simp, ?_⟩
      intro i _ _
      simp only [List.get_eq_getElem, List.getElem_replicate]
      exact ⟨worker_ticketed hgrant hhalted hjob _ (.inl rfl), hstart⟩
    · rw [List.pairwise_replicate]
      exact .inr nofun
  obtain ⟨Ks, hends, hpath⟩ := runTogether_obeys schedule hteam
  have hcovered := covered_of_exchanges hpath fun i hi => absurd hi (Nat.not_lt_zero i)
  obtain ⟨hlength, hall⟩ := List.forall₂_iff_get.1 hends
  have hsize : 0 < Ks.length := by
    rw [hpath.length_eq, List.length_replicate]
    exact Nat.lt_of_lt_of_le Nat.zero_lt_one (Nat.le_max_left ..)
  -- what a worker brought back has a claim that fits the last state
  have hresult : ∀ i a, resultAt (runTogether h.withCursor schedule (List.replicate
      (poolSize count workers) (worker count halted job (count + 1))) (0, s)).1.flatten i = some a →
      ∃ k, result i a k ∧ D.fit k (runBounded h schedule count workers halted job s).2 := by
    intro i a hlookup
    obtain ⟨batch, hbatch, hin⟩ := List.mem_flatten.1 (mem_of_resultAt hlookup)
    obtain ⟨n, hn, rfl⟩ := List.getElem_of_mem hbatch
    obtain ⟨hworked, hfits⟩ := hall n hn (hlength ▸ hn)
    obtain ⟨k, hk, hresult⟩ := hworked.results _ hin
    exact ⟨k, hresult, (hfits.held i k hk).2⟩
  -- the first worker went past the last job, so every job is with some worker
  have hdone : ∀ i < count, (resultAt (runTogether h.withCursor schedule (List.replicate
      (poolSize count workers) (worker count halted job (count + 1))) (0, s)).1.flatten i).isSome := by
    intro i hi
    obtain ⟨hworked, hfits⟩ := hall 0 (hlength ▸ hsize) hsize
    obtain ⟨j, hj, hheld⟩ := hworked.past
    obtain ⟨k, hk⟩ := Option.isSome_iff_exists.1 hheld
    obtain ⟨hcursor, -⟩ := hfits.held j k hk
    obtain ⟨K, hK, hiK⟩ := hcovered i (by omega)
    obtain ⟨n, hn, rfl⟩ := List.getElem_of_mem hK
    rcases (hall n (hlength ▸ hn) hn).1.done i hi hiK with hnone | ⟨a, ha⟩
    · cases hnone
    · exact isSome_resultAt (List.mem_flatten.2 ⟨_, List.get_mem _ _, ha⟩)
  refine ⟨Discipline.reach_of_ticketed hpath.reach, ?_⟩
  have hsome : ∀ o ∈ (runBounded h schedule count workers halted job s).1, o.isSome := by
    intro o ho
    obtain ⟨i, hi, rfl⟩ := List.mem_map.1 ho
    exact hdone i (List.mem_range.1 hi)
  obtain ⟨as, has⟩ := exists_map_some hsome
  have hcount : as.length = count := by
    have hlengths := congrArg List.length has
    simpa [runBounded] using hlengths
  refine ⟨as, has.symm, hcount, ?_⟩
  intro i a ha
  have hi : i < count := hcount ▸ (List.getElem?_eq_some_iff.1 ha).1
  have hget : (runBounded h schedule count workers halted job s).1[i]? = some (some a) := by
    rw [← has, List.getElem?_map, ha]
    rfl
  refine hresult i a ?_
  simpa [runBounded, List.getElem?_range hi] using hget

end Ticketed

end TreeImage
