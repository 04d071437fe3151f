import TreeImage.Program.Workers
import Mathlib.Data.List.Forall2

set_option autoImplicit false

/-! # Programs in lockstep

Two programs are in lockstep if they make their calls at the same time, and from states that are the same in what
matters each call of one leads to the same as that of the other (`Program.InStep`). So they also end with matching
results, alone and in groups that take turns along one schedule. -/

namespace TreeImage

variable {I : Interface} {α β γ δ σ : Type} {h : Handler I σ} {same : σ → σ → Prop} {post : α → β → Prop} {s t : σ}

/-- From states that are the same in what matters, the programs make their calls in step, and end with results that
    `post` relates. -/
inductive Program.InStep (h : Handler I σ) (same : σ → σ → Prop) (post : α → β → Prop) :
    Program I α → Program I β → Prop
  | done {a : α} {b : β} (hpost : post a b) : InStep h same post (.done a) (.done b)
  | call {c c' : I.Call} {next : I.Reply c → Program I α} {next' : I.Reply c' → Program I β}
      (hsame : ∀ s t, same s t → same (h c s).2 (h c' t).2)
      (hnext : ∀ s t, same s t → InStep h same post (next (h c s).1) (next' (h c' t).1)) :
      InStep h same post (.call c next) (.call c' next')

/-- Every call finds the same and leads to the same. -/
def Handler.Respects (h : Handler I σ) (same : σ → σ → Prop) : Prop :=
  ∀ c s t, same s t → (h c s).1 = (h c t).1 ∧ same (h c s).2 (h c t).2

namespace Program

variable {p : Program I α} {q : Program I β}

/-! ## Programs -/

theorem inStep_self (hrespects : h.Respects same) (p : Program I α) : p.InStep h same (· = ·) p := by
  induction p with
  | done a => exact .done rfl
  | call c next ih =>
    refine .call (fun s t hst => (hrespects c s t hst).2) ?_
    intro s t hst
    rw [(hrespects c s t hst).1]
    exact ih _

theorem InStep.bind {f : α → Program I γ} {g : β → Program I δ} {post' : γ → δ → Prop} (hp : p.InStep h same post q)
    (hf : ∀ a b, post a b → (f a).InStep h same post' (g b)) : (p.bind f).InStep h same post' (q.bind g) := by
  induction hp with
  | done hpost => exact hf _ _ hpost
  | call hsame _ ih => exact .call hsame ih

/-- What one program makes of its result is no call. -/
theorem InStep.map_left {f : α → γ} {post' : γ → β → Prop} (hp : p.InStep h same post q)
    (hf : ∀ a b, post a b → post' (f a) b) : (p.bind fun a => .done (f a)).InStep h same post' q := by
  have hboth := hp.bind (f := fun a => .done (f a)) (g := .done) fun a b hab => .done (hf a b hab)
  rwa [bind_done] at hboth

theorem InStep.run (hp : p.InStep h same post q) (hst : same s t) :
    post (p.run h s).1 (q.run h t).1 ∧ same (p.run h s).2 (q.run h t).2 := by
  induction hp generalizing s t with
  | done hpost => exact ⟨hpost, hst⟩
  | call hsame _ ih => exact ih s t hst (hsame s t hst)

theorem InStep.step (hp : p.InStep h same post q) (hst : same s t) :
    (p.step h s).1.InStep h same post (q.step h t).1 ∧ same (p.step h s).2 (q.step h t).2 := by
  cases hp with
  | done hpost => exact ⟨.done hpost, hst⟩
  | call hsame hnext => exact ⟨hnext s t hst, hsame s t hst⟩

end Program

/-! ## Groups -/

section Groups

variable {ps : List (Program I α)} {qs : List (Program I β)}

theorem stepAt_inStep (hps : List.Forall₂ (Program.InStep h same post) ps qs) (hst : same s t) (i : Nat) :
    List.Forall₂ (Program.InStep h same post) (stepAt h i ps s).1 (stepAt h i qs t).1 ∧
      same (stepAt h i ps s).2 (stepAt h i qs t).2 := by
  induction hps generalizing i with
  | nil => cases i <;> exact ⟨.nil, hst⟩
  | cons hp hrest ih =>
    cases i with
    | zero =>
      obtain ⟨hstep, hsame⟩ := hp.step hst
      exact ⟨.cons hstep hrest, hsame⟩
    | succ i =>
      obtain ⟨hstep, hsame⟩ := ih i
      exact ⟨.cons hp hstep, hsame⟩

theorem runInTurn_inStep (hps : List.Forall₂ (Program.InStep h same post) ps qs) (hst : same s t) :
    List.Forall₂ post (runInTurn h ps s).1 (runInTurn h qs t).1 ∧ same (runInTurn h ps s).2 (runInTurn h qs t).2 := by
  induction hps generalizing s t with
  | nil => exact ⟨.nil, hst⟩
  | cons hp _ ih =>
    obtain ⟨hpost, hsame⟩ := hp.run hst
    obtain ⟨hposts, hsame'⟩ := ih hsame
    exact ⟨.cons hpost hposts, hsame'⟩

/-- Groups in lockstep end alike along every schedule. -/
theorem runTogether_inStep (schedule : List Nat) (hps : List.Forall₂ (Program.InStep h same post) ps qs)
    (hst : same s t) :
    List.Forall₂ post (runTogether h schedule ps s).1 (runTogether h schedule qs t).1 ∧
      same (runTogether h schedule ps s).2 (runTogether h schedule qs t).2 := by
  induction schedule generalizing ps qs s t with
  | nil => exact runInTurn_inStep hps hst
  | cons i schedule ih =>
    obtain ⟨hstep, hsame⟩ := stepAt_inStep hps hst i
    exact ih hstep hsame

end Groups

/-! ## Pools -/

section Pools

variable {halted : Program I Bool} {job job' : Nat → Program I α} {count : Nat}

/-- States of a pool with the same cursor that are the same in what matters. -/
def WithCursor (same : σ → σ → Prop) (x y : Nat × σ) : Prop := x.1 = y.1 ∧ same x.2 y.2

theorem Program.InStep.inPool {p : Program I α} {q : Program I β} (hp : p.InStep h same post q) :
    p.inPool.InStep h.withCursor (WithCursor same) post q.inPool := by
  induction hp with
  | done hpost => exact .done hpost
  | call hsame _ ih =>
    exact .call (fun x y hxy => ⟨hxy.1, hsame x.2 y.2 hxy.2⟩) fun x y hxy => ih x.2 y.2 hxy.2

/-- Workers with jobs in lockstep are in lockstep. -/
theorem worker_inStep (hlook : halted.InStep h same (· = ·) halted)
    (hjob : ∀ i, (job i).InStep h same (· = ·) (job' i)) (fuel : Nat) :
    (worker count halted job fuel).InStep h.withCursor (WithCursor same) (· = ·) (worker count halted job' fuel) := by
  induction fuel with
  | zero => exact .done rfl
  | succ fuel ih =>
    refine hlook.inPool.bind ?_
    rintro stop _ rfl
    cases stop with
    | true => exact .done rfl
    | false =>
      refine .call (fun x y hxy => ⟨congrArg (· + 1) hxy.1, hxy.2⟩) ?_
      rintro ⟨i, s⟩ ⟨_, t⟩ ⟨rfl, hst⟩
      show Program.InStep h.withCursor (WithCursor same) (· = ·) (if count ≤ i then _ else _) (if count ≤ i then _ else _)
      split
      · exact .done rfl
      · refine (hjob i).inPool.bind ?_
        rintro a _ rfl
        refine ih.bind ?_
        rintro rest _ rfl
        exact .done rfl

/-- **Pools whose jobs are in lockstep end alike**, along every schedule and with every number of workers. -/
theorem runBounded_inStep (hlook : halted.InStep h same (· = ·) halted)
    (hjob : ∀ i, (job i).InStep h same (· = ·) (job' i)) (schedule : List Nat) (workers : Nat) (hst : same s t) :
    (runBounded h schedule count workers halted job s).1 = (runBounded h schedule count workers halted job' t).1 ∧
      same (runBounded h schedule count workers halted job s).2
        (runBounded h schedule count workers halted job' t).2 := by
  have hgroup : ∀ n, List.Forall₂ (Program.InStep h.withCursor (WithCursor same) (· = ·))
      (List.replicate n (worker count halted job (count + 1)))
      (List.replicate n (worker count halted job' (count + 1))) := by
    intro n
    induction n with
    | zero => exact .nil
    | succ n ih => exact .cons (worker_inStep hlook hjob (count + 1)) ih
  obtain ⟨hbatches, -, hsame⟩ := runTogether_inStep (s := (0, s)) (t := (0, t)) schedule
    (hgroup (poolSize count workers)) ⟨rfl, hst⟩
  rw [List.forall₂_eq_eq_eq] at hbatches
  exact ⟨congrArg (fun batches : List (List (Nat × α)) => (List.range count).map (resultAt batches.flatten)) hbatches, hsame⟩

end Pools

end TreeImage
