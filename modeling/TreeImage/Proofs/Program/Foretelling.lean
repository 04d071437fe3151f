import TreeImage.Proofs.Program.Tickets

set_option autoImplicit false

/-! # Programs whose claims tell how they end

A claim may say enough of the state to tell every reply, whatever else stands there. Then it tells how the whole
program goes on and ends (`Program.Foretold`), so there is one end that it comes to beside any others
(`Program.Foretold.exists_end`). Jobs with such claims give a pool the same results with every number of workers and
along every schedule, and leave the same claims behind (`runBounded_foretold`). -/

namespace TreeImage

variable {I : Interface} {α β σ κ : Type} {h : Handler I σ} {D : Discipline h κ} {post : α → κ → Prop} {k k' : κ}
  {s : σ}

/-! ## One program -/

namespace Program

/-- In all states that the claim fits, the program makes the same calls, is replied the same, and exchanges its claim
    for the same others. It ends as `post` says. -/
def Foretold (D : Discipline h κ) (post : α → κ → Prop) : Program I α → κ → Prop
  | done a, k => post a k
  | call c next, k => ∀ s, D.fit k s → ∃ k',
      (∀ t, D.fit k t → (h c t).1 = (h c s).1 ∧ D.may k k' c t ∧ D.fit k' (h c t).2) ∧
        (next (h c s).1).Foretold D post k'

/-- The rule for a call of which the claim tells the reply. -/
theorem foretold_call {c : I.Call} {next : I.Reply c → Program I α} (reply : I.Reply c) (k' : κ)
    (hcall : ∀ t, D.fit k t → (h c t).1 = reply ∧ D.may k k' c t ∧ D.fit k' (h c t).2)
    (hnext : (next reply).Foretold D post k') : (call c next).Foretold D post k := by
  intro s hfit
  obtain rfl := (hcall s hfit).1
  exact ⟨k', hcall, hnext⟩

/-- It is enough that this is so when the claim fits some state. -/
theorem foretold_of_fit {c : I.Call} {next : I.Reply c → Program I α}
    (h : ∀ s, D.fit k s → (call c next).Foretold D post k) : (call c next).Foretold D post k :=
  fun s hfit => h s hfit s hfit

theorem Foretold.imp {post' : α → κ → Prop} {p : Program I α} (hp : p.Foretold D post k)
    (himp : ∀ a k, post a k → post' a k) : p.Foretold D post' k := by
  induction p generalizing k with
  | done a => exact himp a k hp
  | call c next ih =>
    intro s hfit
    obtain ⟨k', hcall, hnext⟩ := hp s hfit
    exact ⟨k', hcall, ih _ hnext⟩

theorem Foretold.bind {p : Program I α} {f : α → Program I β} {post' : β → κ → Prop} (hp : p.Foretold D post k)
    (hf : ∀ a k, post a k → (f a).Foretold D post' k) : (p.bind f).Foretold D post' k := by
  induction p generalizing k with
  | done a => exact hf a k hp
  | call c next ih =>
    intro s hfit
    obtain ⟨k', hcall, hnext⟩ := hp s hfit
    exact ⟨k', hcall, ih _ hnext⟩

theorem Foretold.obeys {p : Program I α} (hp : p.Foretold D post k) : p.Obeys D (fun a k _ => post a k) k s := by
  induction p generalizing k s with
  | done a => exact hp
  | call c next ih =>
    intro s' _ hfit
    obtain ⟨k', hcall, hnext⟩ := hp s' hfit
    exact ⟨k', (hcall s' hfit).2.1, (hcall s' hfit).2.2, ih _ hnext⟩

/-- **What is foretold is one end**, whatever the others do. -/
theorem Foretold.exists_end {p : Program I α} (hp : p.Foretold D post k) (hfit : D.fit k s) :
    ∃ a k', post a k' ∧ ∀ t, p.Obeys D (fun b l _ => b = a ∧ l = k') k t := by
  induction p generalizing k s with
  | done a => exact ⟨a, k, hp, fun _ => ⟨rfl, rfl⟩⟩
  | call c next ih =>
    obtain ⟨k', hcall, hnext⟩ := hp s hfit
    obtain ⟨a, l, hpost, hobeys⟩ := ih _ hnext (hcall s hfit).2.2
    refine ⟨a, l, hpost, fun t t' _ hfit' => ?_⟩
    obtain ⟨hreply, hmay, hfit''⟩ := hcall t' hfit'
    refine ⟨k', hmay, hfit'', ?_⟩
    rw [hreply]
    exact hobeys _

end Program

/-! ## A pool -/

/-- **A pool whose jobs come to one end each comes to one end**: with every number of workers and along every schedule
    the results are the same, and the claims that fit the last state. -/
theorem runBounded_foretold {grant : Nat → κ} (hgrant : ∀ i j, i ≠ j → D.apart (grant i) (grant j))
    {halted : Program I Bool} (hhalted : halted.Says D false) {job : Nat → Program I α} {result : Nat → α}
    {left : Nat → κ}
    (hjob : ∀ i t, (job i).Obeys D (fun a k _ => a = result i ∧ k = left i) (grant i) t)
    (schedule : List Nat) (count workers : Nat) (hfit : ∀ i, D.fit (grant i) s) :
    (runBounded h schedule count workers halted job s).1 = (List.range count).map (some ∘ result) ∧
      D.Reach s (runBounded h schedule count workers halted job s).2 ∧
      ∀ i < count, D.fit (left i) (runBounded h schedule count workers halted job s).2 := by
  obtain ⟨hreach, results, hresults, hlength, hends⟩ := runBounded_ticketed hgrant hhalted (fun i t _ => hjob i t)
    schedule count workers hfit
  have hend : ∀ (i : Nat) (hi : i < results.length), results[i] = result i ∧
      D.fit (left i) (runBounded h schedule count workers halted job s).2 := by
    intro i hi
    obtain ⟨_, ⟨ha, rfl⟩, hleft⟩ := hends i _ (List.getElem?_eq_getElem hi)
    exact ⟨ha, hleft⟩
  refine ⟨?_, hreach, fun i hi => (hend i (hlength ▸ hi)).2⟩
  rw [hresults]
  refine List.ext_getElem (by simp [hlength]) fun i hi _ => ?_
  rw [List.length_map] at hi
  simp [(hend i hi).1]

end TreeImage
