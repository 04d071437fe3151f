import TreeImage.Proofs.Program.Pool

set_option autoImplicit false

/-! # What results tell

Others may change a shared state between two calls of a program, so the result of the program tells of the
states that its calls met, and not of a single one (`Program.Learns`). Of these states an invariant is known.
It can be one that a discipline keeps without being made for it (`Discipline.also`). -/

namespace TreeImage

variable {I : Interface} {α β σ κ : Type} {h : Handler I σ} {D : Discipline h κ} {inv : σ → Prop}
  {post : α → κ → σ → Prop} {told : α → Prop} {k : κ} {s : σ}

/-! ## Invariants -/

/-- The discipline, for programs that keep an invariant as well. -/
def Discipline.also (D : Discipline h κ) (inv : σ → Prop) : Discipline h κ where
  fit k s := D.fit k s ∧ inv s
  rely := D.rely
  may := D.may
  apart := D.apart
  rely_refl := D.rely_refl
  rely_trans := D.rely_trans
  apart_symm := D.apart_symm
  spares hmay hfit hfit' hother hapart := by
    obtain ⟨hrely, hkept, hapart'⟩ := D.spares hmay hfit.1 hfit'.1 hother.1 hapart
    exact ⟨hrely, ⟨hkept, hfit'.2⟩, hapart'⟩

/-- The calls that a discipline allows keep the invariant. -/
def Discipline.Maintains (D : Discipline h κ) (inv : σ → Prop) : Prop :=
  ∀ k k' c s, D.may k k' c s → D.fit k s → D.fit k' (h c s).2 → inv s → inv (h c s).2

theorem Program.Obeys.also {p : Program I α} (hinv : D.Maintains inv) (hp : p.Obeys D post k s) :
    p.Obeys (D.also inv) post k s := by
  induction p generalizing k s with
  | done a => exact hp
  | call c next ih =>
    intro s' hrely hfit
    obtain ⟨k', hmay, hfit', hnext⟩ := hp s' hrely hfit.1
    exact ⟨k', hmay, ⟨hfit', hinv k k' c s' hmay hfit.1 hfit' hfit.2⟩, ih _ hnext⟩

/-! ## Results -/

/-- Whatever states with the invariant answer its calls, the result of the program is as `told` says. -/
def Program.Learns (h : Handler I σ) (inv : σ → Prop) (told : α → Prop) : Program I α → Prop
  | .done a => told a
  | .call c next => ∀ s, inv s → (next (h c s).1).Learns h inv told

/-- The discipline of a program that looks at states with the invariant. -/
abbrev Discipline.watching (h : Handler I σ) (inv : σ → Prop) : Discipline h Unit :=
  .keeping h inv (fun _ _ => True) (fun _ => trivial) fun _ _ => trivial

namespace Program

theorem Learns.bind {p : Program I α} {f : α → Program I β} {told' : β → Prop} (hp : p.Learns h inv told)
    (hf : ∀ a, told a → (f a).Learns h inv told') : (p.bind f).Learns h inv told' := by
  induction p with
  | done a => exact hf a hp
  | call c next ih => exact fun s hs => ih _ (hp s hs)

theorem Learns.imp {p : Program I α} {told' : α → Prop} (hp : p.Learns h inv told) (himp : ∀ a, told a → told' a) :
    p.Learns h inv told' := by
  induction p with
  | done a => exact himp a hp
  | call c next ih => exact fun s hs => ih _ (hp s hs)

theorem Learns.and {p : Program I α} {told' : α → Prop} (hp : p.Learns h inv told) (hp' : p.Learns h inv told') :
    p.Learns h inv fun a => told a ∧ told' a := by
  induction p with
  | done a => exact ⟨hp, hp'⟩
  | call c next ih => exact fun s hs => ih _ (hp s hs) (hp' s hs)

/-- What any states tell, those tell of which more is known. -/
theorem Learns.restrict {p : Program I α} {inv' : σ → Prop} (hp : p.Learns h inv told) (hinv : ∀ s, inv' s → inv s) :
    p.Learns h inv' told := by
  induction p with
  | done a => exact hp
  | call c next ih => exact fun s hs => ih _ (hp s (hinv s hs))

/-- A program of which nothing is known. -/
theorem learns_true (p : Program I α) : p.Learns h inv fun _ => True := by
  induction p with
  | done a => trivial
  | call c next ih => exact fun s _ => ih _

/-- What a program learns from any states, it learns from those of its own run. -/
theorem Learns.run {p : Program I α} (hp : p.Learns h (fun _ => True) told) (s : σ) : told (p.run h s).1 := by
  induction p generalizing s with
  | done a => exact hp
  | call c next ih => exact ih _ (hp s trivial) _

/-- What a program finds that only looks. -/
theorem Obeys.tells {p : Program I α} (hp : p.Obeys (.watching h inv) (fun a _ _ => told a) () s) :
    p.Learns h inv told := by
  induction p generalizing s with
  | done a => exact hp
  | call c next ih =>
    intro s' hs
    obtain ⟨⟨⟩, -, -, hnext⟩ := hp s' trivial hs
    exact ih _ hnext

/-- An obedient program meets states that fit its claims only. -/
theorem Obeys.learns {p : Program I α} (hp : p.Obeys D post k s) (hlearns : p.Learns h inv told)
    (hfits : ∀ k s, D.fit k s → inv s) : p.Obeys D (fun a k s => post a k s ∧ told a) k s := by
  induction p generalizing k s with
  | done a => exact ⟨hp, hlearns⟩
  | call c next ih =>
    intro s' hrely hfit
    obtain ⟨k', hmay, hfit', hnext⟩ := hp s' hrely hfit
    exact ⟨k', hmay, hfit', ih _ hnext (hlearns s' (hfits k s' hfit))⟩

end Program

section Pool

variable {halted : Program I Bool} {job : Nat → Program I α} {idle : κ → Prop} {result : Nat → α → κ → Prop}

theorem Workable.also (hinv : D.Maintains inv) (hwork : Workable D halted job idle result) :
    Workable (D.also inv) halted job idle result :=
  ⟨fun k s hidle => (hwork.halted k s hidle).also hinv, fun i k s hidle => (hwork.job i k s hidle).also hinv⟩

/-- What the jobs of a pool learn, the results of the pool tell. -/
theorem Workable.learns {told : Nat → α → Prop} (hwork : Workable D halted job idle result)
    (hlearns : ∀ i, (job i).Learns h inv (told i)) (hfits : ∀ k s, D.fit k s → inv s) :
    Workable D halted job idle fun i a k => result i a k ∧ told i a := by
  refine ⟨hwork.halted, ?_⟩
  intro i k s hidle
  refine ((hwork.job i k s hidle).learns (hlearns i) hfits).imp ?_
  rintro a k' t ⟨⟨hidle', hresult, hkept⟩, htold⟩
  exact ⟨hidle', ⟨hresult, htold⟩, fun j b hb => ⟨hkept j b hb.1, hb.2⟩⟩

end Pool

end TreeImage
