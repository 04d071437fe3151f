import Mathlib.Data.List.Forall2
import Mathlib.Logic.Relation
import TreeImage.Program.Workers

set_option autoImplicit false

/-! # Programs that share a state

A `Discipline` says what programs may do to a state that others work on at the same time. Each of them
holds a claim. The claim says what its holder can count on in the state (`fit`), what the others leave
alone between two of its calls (`rely`), and which calls its holder may make (`may`). `Program.Obeys` is
the rule for one program; it is proved call by call. A group of obedient programs whose claims are apart
can then be run along any schedule (`runTogether_obeys`). -/

namespace TreeImage

variable {I : Interface} {α β σ κ : Type} {h : Handler I σ}

/-! ## Disciplines -/

/-- Rules for programs that share a state. Making a call may exchange a claim for another. -/
structure Discipline {I : Interface} {σ : Type} (h : Handler I σ) (κ : Type) where
  fit : κ → σ → Prop
  rely : κ → σ → σ → Prop
  may : κ → κ → I.Call → σ → Prop
  apart : κ → κ → Prop
  rely_refl : ∀ k s, rely k s s
  rely_trans : ∀ {k s t u}, rely k s t → rely k t u → rely k s u
  apart_symm : ∀ {k l}, apart k l → apart l k
  spares : ∀ {k k' l c s}, may k k' c s → fit k s → fit k' (h c s).2 → fit l s → apart k l →
    rely l s (h c s).2 ∧ fit l (h c s).2 ∧ apart k' l

namespace Discipline

variable (D : Discipline h κ)

/-- A call that is allowed and leaves its maker with a claim that fits. -/
def Step (s s' : σ) : Prop :=
  ∃ k k' c, D.may k k' c s ∧ D.fit k s ∧ D.fit k' (h c s).2 ∧ s' = (h c s).2

/-- Any number of such calls. -/
def Reach : σ → σ → Prop := Relation.ReflTransGen D.Step

/-- Any number of such calls by the holders of some claims, one of whom exchanges its claim in each. -/
inductive Exchanges (ks : List κ) (s : σ) : List κ → σ → Prop
  | refl : Exchanges ks s ks s
  | tail {l r : List κ} {k k' : κ} {c : I.Call} {t : σ} (before : Exchanges ks s (l ++ k :: r) t)
      (hmay : D.may k k' c t) (hfit : D.fit k t) (hfit' : D.fit k' (h c t).2) :
      Exchanges ks s (l ++ k' :: r) (h c t).2

/-- What happens between two states on the way from claim `k` to claim `k'` leaves every other claim
    intact. -/
def Spares (k k' : κ) (s s' : σ) : Prop :=
  ∀ l, D.fit l s → D.apart k l → D.rely l s s' ∧ D.fit l s' ∧ D.apart k' l

theorem spares_refl (k : κ) (s : σ) : D.Spares k k s s :=
  fun _ hfit hapart => ⟨D.rely_refl _ _, hfit, hapart⟩

variable {D}

theorem Spares.trans {k l m : κ} {s t u : σ} (h₁ : D.Spares k l s t) (h₂ : D.Spares l m t u) :
    D.Spares k m s u := by
  intro o hfit hapart
  obtain ⟨hrely, hfit, hapart⟩ := h₁ o hfit hapart
  obtain ⟨hrely', hfit, hapart⟩ := h₂ o hfit hapart
  exact ⟨D.rely_trans hrely hrely', hfit, hapart⟩

theorem spares_call {k k' : κ} {c : I.Call} {s : σ} (hmay : D.may k k' c s) (hfit : D.fit k s)
    (hfit' : D.fit k' (h c s).2) : D.Spares k k' s (h c s).2 :=
  fun _ => D.spares hmay hfit hfit'

theorem Exchanges.reach {ks ks' : List κ} {s s' : σ} (hpath : D.Exchanges ks s ks' s') :
    D.Reach s s' := by
  induction hpath with
  | refl => exact .refl
  | tail _ hmay hfit hfit' ih => exact ih.tail ⟨_, _, _, hmay, hfit, hfit', rfl⟩

theorem Exchanges.trans {ks ls ms : List κ} {s t u : σ} (hpath : D.Exchanges ks s ls t)
    (hpath' : D.Exchanges ls t ms u) : D.Exchanges ks s ms u := by
  induction hpath' with
  | refl => exact hpath
  | tail _ hmay hfit hfit' ih => exact ih.tail hmay hfit hfit'

theorem Exchanges.length_eq {ks ks' : List κ} {s s' : σ} (hpath : D.Exchanges ks s ks' s') :
    ks'.length = ks.length := by
  induction hpath with
  | refl => rfl
  | tail _ _ _ _ ih => rw [← ih, List.length_append, List.length_append, List.length_cons, List.length_cons]

/-- Holders of other claims may stand on both sides. -/
theorem Exchanges.among {ks ks' : List κ} {s s' : σ} (hpath : D.Exchanges ks s ks' s') (l r : List κ) :
    D.Exchanges (l ++ ks ++ r) s (l ++ ks' ++ r) s' := by
  induction hpath with
  | refl => exact .refl
  | @tail l' r' k k' c t _ hmay hfit hfit' ih =>
    have hsplit : ∀ m, l ++ (l' ++ m :: r') ++ r = (l ++ l') ++ m :: (r' ++ r) := by simp
    rw [hsplit] at ih ⊢
    exact ih.tail hmay hfit hfit'

/-- Calls that leave the state as it is are always allowed. -/
def LetsAsk (D : Discipline h κ) : Prop := ∀ k c s, (h c s).2 = s → D.may k k c s

/-- The discipline of a program that is alone with the state: it may make the given calls. -/
def alone (h : Handler I σ) (may : I.Call → σ → Prop) : Discipline h Unit where
  fit _ _ := True
  rely _ s s' := s' = s
  may _ _ c s := may c s
  apart _ _ := False
  rely_refl _ _ := rfl
  rely_trans h₁ h₂ := h₂.trans h₁
  apart_symm h := h
  spares _ _ _ _ h := h.elim

/-- The discipline of programs that all keep an invariant and only take a state to a later one. -/
def keeping (h : Handler I σ) (invariant : σ → Prop) (later : σ → σ → Prop) (hrefl : ∀ s, later s s)
    (htrans : ∀ {s t u}, later s t → later t u → later s u) : Discipline h Unit where
  fit _ := invariant
  rely _ := later
  may _ _ c s := later s (h c s).2
  apart _ _ := True
  rely_refl _ := hrefl
  rely_trans := htrans
  apart_symm _ := trivial
  spares hmay _ hfit' _ _ := ⟨hmay, hfit', trivial⟩

section Keeping

variable {invariant : σ → Prop} {later : σ → σ → Prop} {hrefl : ∀ s, later s s}
  {htrans : ∀ {s t u}, later s t → later t u → later s u} {s s' : σ}

theorem letsAsk_keeping : (keeping h invariant later hrefl htrans).LetsAsk := by
  intro _ c s hstill
  show later s (h c s).2
  rw [hstill]
  exact hrefl s

theorem reach_keeping (hreach : (keeping h invariant later hrefl htrans).Reach s s') :
    later s s' ∧ (invariant s → invariant s') := by
  induction hreach with
  | refl => exact ⟨hrefl s, id⟩
  | tail _ hstep ih =>
    obtain ⟨k, k', c, hmay, -, hfit', rfl⟩ := hstep
    exact ⟨htrans ih.1 hmay, fun _ => hfit'⟩

end Keeping

end Discipline

namespace Program

variable {D : Discipline h κ} {post post' : α → κ → σ → Prop} {k : κ} {s : σ}

/-! ## One program -/

/-- Whatever the others do between its calls, the program makes only calls that it may make, its claim
    always fits, and it ends as `post` says. -/
def Obeys (D : Discipline h κ) (post : α → κ → σ → Prop) : Program I α → κ → σ → Prop
  | done a, k, s => post a k s
  | call c next, k, s => ∀ s', D.rely k s s' → D.fit k s' →
      ∃ k', D.may k k' c s' ∧ D.fit k' (h c s').2 ∧ (next (h c s').1).Obeys D post k' (h c s').2

theorem Obeys.imp {p : Program I α} (hp : p.Obeys D post k s)
    (himp : ∀ a k s, post a k s → post' a k s) : p.Obeys D post' k s := by
  induction p generalizing k s with
  | done a => exact himp _ _ _ hp
  | call c next ih =>
    intro s' hrely hfit
    obtain ⟨k', hmay, hfit', hnext⟩ := hp s' hrely hfit
    exact ⟨k', hmay, hfit', ih _ hnext⟩

theorem Obeys.bind {p : Program I α} {f : α → Program I β} {post' : β → κ → σ → Prop}
    (hp : p.Obeys D post k s) (hf : ∀ a k s, post a k s → (f a).Obeys D post' k s) :
    (p.bind f).Obeys D post' k s := by
  induction p generalizing k s with
  | done a => exact hf _ _ _ hp
  | call c next ih =>
    intro s' hrely hfit
    obtain ⟨k', hmay, hfit', hnext⟩ := hp s' hrely hfit
    exact ⟨k', hmay, hfit', ih _ hnext⟩

/-- The rule for a call that leaves the state as it is. -/
theorem Obeys.ask {c : I.Call} {next : I.Reply c → Program I α} (hask : D.LetsAsk)
    (hstill : ∀ s, (h c s).2 = s)
    (hnext : ∀ s', D.rely k s s' → D.fit k s' → (next (h c s').1).Obeys D post k s') :
    (call c next).Obeys D post k s := by
  intro s' hrely hfit
  refine ⟨k, hask k c s' (hstill s'), ?_, ?_⟩
  · rw [hstill]
    exact hfit
  · rw [hstill]
    exact hnext s' hrely hfit

/-- Obedience is not disturbed by what the others may do, if the end is about the claim only. -/
theorem Obeys.of_rely {post : α → κ → Prop} {p : Program I α} {s' : σ}
    (hp : p.Obeys D (fun a k _ => post a k) k s) (hrely : D.rely k s s') :
    p.Obeys D (fun a k _ => post a k) k s' := by
  cases p with
  | done a => exact hp
  | call c next => exact fun t hrely' hfit => hp t (D.rely_trans hrely hrely') hfit

/-- What an obedient program does when nobody interferes. -/
theorem Obeys.run {p : Program I α} (hp : p.Obeys D post k s) (hfit : D.fit k s) :
    ∃ k', post (p.run h s).1 k' (p.run h s).2 ∧ D.fit k' (p.run h s).2 ∧
      D.Exchanges [k] s [k'] (p.run h s).2 ∧ D.Spares k k' s (p.run h s).2 := by
  induction p generalizing k s with
  | done a => exact ⟨k, hp, hfit, .refl, D.spares_refl k s⟩
  | call c next ih =>
    obtain ⟨k', hmay, hfit', hnext⟩ := hp s (D.rely_refl k s) hfit
    obtain ⟨l, hpost, hfitl, hpath, hspares⟩ := ih _ hnext hfit'
    have hcall : D.Exchanges [k] s [k'] (h c s).2 :=
      Discipline.Exchanges.tail (l := []) .refl hmay hfit hfit'
    exact ⟨l, hpost, hfitl, hcall.trans hpath, (D.spares_call hmay hfit hfit').trans hspares⟩

/-- One call of an obedient program. -/
theorem Obeys.step {p : Program I α} (hp : p.Obeys D post k s) (hfit : D.fit k s) :
    ∃ k', (p.step h s).1.Obeys D post k' (p.step h s).2 ∧ D.fit k' (p.step h s).2 ∧
      D.Exchanges [k] s [k'] (p.step h s).2 ∧ D.Spares k k' s (p.step h s).2 := by
  cases p with
  | done a => exact ⟨k, hp, hfit, .refl, D.spares_refl k s⟩
  | call c next =>
    obtain ⟨k', hmay, hfit', hnext⟩ := hp s (D.rely_refl k s) hfit
    exact ⟨k', hnext, hfit', Discipline.Exchanges.tail (l := []) .refl hmay hfit hfit',
      D.spares_call hmay hfit hfit'⟩

/-- The rule for one call of a program that is alone. -/
theorem obeys_alone_call {may : I.Call → σ → Prop} {post : α → Unit → σ → Prop} {c : I.Call}
    {next : I.Reply c → Program I α} (hmay : may c s)
    (hnext : (next (h c s).1).Obeys (.alone h may) post () (h c s).2) :
    (call c next).Obeys (.alone h may) post () s := by
  rintro s' rfl -
  exact ⟨(), hmay, trivial, hnext⟩

/-- What an obedient program may do, it may do when it is alone. -/
theorem Obeys.alone {may : I.Call → σ → Prop} {p : Program I α} (hp : p.Obeys D post k s) (hfit : D.fit k s)
    (hmay : ∀ k k' c s, D.may k k' c s → D.fit k s → D.fit k' (h c s).2 → may c s) :
    p.Obeys (.alone h may) (fun _ _ _ => True) () s := by
  induction p generalizing k s with
  | done a => trivial
  | call c next ih =>
    obtain ⟨k', hcall, hfit', hnext⟩ := hp s (D.rely_refl k s) hfit
    exact obeys_alone_call (hmay k k' c s hcall hfit hfit') (ih _ hnext hfit')

/-- What a program does that is alone takes the state to a later one, if its single calls do. -/
theorem Obeys.later {may : I.Call → σ → Prop} {post : α → Unit → σ → Prop} {p : Program I α}
    {later : σ → σ → Prop} (hrefl : ∀ s, later s s) (htrans : ∀ {s t u}, later s t → later t u → later s u)
    (hmay : ∀ c s, may c s → later s (h c s).2) (hp : p.Obeys (.alone h may) post () s) :
    p.Obeys (.alone h may) (fun a k s' => post a k s' ∧ later s s') () s := by
  induction p generalizing s with
  | done a => exact ⟨hp, hrefl s⟩
  | call c next ih =>
    rintro _ rfl -
    obtain ⟨⟨⟩, hcall, -, hnext⟩ := hp _ rfl trivial
    refine ⟨(), hcall, trivial, (ih _ hnext).imp ?_⟩
    exact fun a _ s' ha => ⟨ha.1, htrans (hmay c _ hcall) ha.2⟩

/-- What a program comes to under `keeping` is later than where it started. -/
theorem Obeys.lasts {invariant : σ → Prop} {later : σ → σ → Prop} {hrefl : ∀ s, later s s}
    {htrans : ∀ {s t u}, later s t → later t u → later s u} {post : α → Unit → σ → Prop} {p : Program I α}
    (hp : p.Obeys (.keeping h invariant later hrefl htrans) post () s) :
    p.Obeys (.keeping h invariant later hrefl htrans) (fun a k s' => post a k s' ∧ later s s') () s := by
  induction p generalizing s with
  | done a => exact ⟨hp, hrefl s⟩
  | call c next ih =>
    intro s' hrely hfit
    obtain ⟨⟨⟩, hmay, hfit', hnext⟩ := hp s' hrely hfit
    refine ⟨(), hmay, hfit', (ih _ hnext).imp ?_⟩
    exact fun a _ t ha => ⟨ha.1, htrans hrely (htrans hmay ha.2)⟩

end Program

/-! ## A group -/

section Group

variable (D : Discipline h κ) (post : α → κ → Prop)

/-- Obedient programs with claims that fit and are apart from each other. -/
structure Team (ps : List (Program I α)) (ks : List κ) (s : σ) : Prop where
  obeys : List.Forall₂ (fun p k => p.Obeys D (fun a k _ => post a k) k s ∧ D.fit k s) ps ks
  apart : ks.Pairwise D.apart

/-- Between the states, the claims of a team are exchanged for others and all other claims stay intact. -/
def TeamSpares (ks ks' : List κ) (s s' : σ) : Prop :=
  ∀ l, D.fit l s → (∀ k ∈ ks, D.apart k l) →
    D.rely l s s' ∧ D.fit l s' ∧ ∀ k ∈ ks', D.apart k l

variable {D post} {p : Program I α} {ps : List (Program I α)} {k k' : κ} {ks ks' : List κ} {s s' : σ}

/-- The members of a team do not notice what a program outside of it does. -/
theorem Team.of_spares (hteam : Team D post ps ks s) (hapart : ∀ l ∈ ks, D.apart k l)
    (hspares : D.Spares k k' s s') : Team D post ps ks s' ∧ ∀ l ∈ ks, D.apart k' l := by
  obtain ⟨hobeys, hpair⟩ := hteam
  induction hobeys with
  | nil => exact ⟨⟨.nil, .nil⟩, fun _ hl => absurd hl List.not_mem_nil⟩
  | cons hp _ ih =>
    obtain ⟨hrely, hfit, hkl⟩ := hspares _ hp.2 (hapart _ (List.mem_cons_self ..))
    obtain ⟨hhead, htail⟩ := List.pairwise_cons.1 hpair
    obtain ⟨hteam, hrest⟩ := ih (fun l hl => hapart l (List.mem_cons_of_mem _ hl)) htail
    exact ⟨⟨.cons ⟨hp.1.of_rely hrely, hfit⟩ hteam.obeys, hpair⟩, List.forall_mem_cons.2 ⟨hkl, hrest⟩⟩

/-- One call of one member. -/
theorem Team.stepAt (hteam : Team D post ps ks s) (i : Nat) :
    ∃ ks', Team D post (stepAt h i ps s).1 ks' (stepAt h i ps s).2 ∧
      D.Exchanges ks s ks' (stepAt h i ps s).2 ∧ TeamSpares D ks ks' s (stepAt h i ps s).2 := by
  induction ps generalizing i ks with
  | nil =>
    have hstill : stepAt h i ([] : List (Program I α)) s = ([], s) := by cases i <;> rfl
    rw [hstill]
    exact ⟨ks, hteam, .refl, fun l hfit hapart => ⟨D.rely_refl _ _, hfit, hapart⟩⟩
  | cons p ps ih =>
    obtain ⟨hobeys, hpair⟩ := hteam
    cases hobeys with
    | @cons _ k _ ks hp hps =>
      obtain ⟨hhead, htail⟩ := List.pairwise_cons.1 hpair
      cases i with
      | zero =>
        obtain ⟨k', hp', hfit', hpath, hspares⟩ := hp.1.step hp.2
        obtain ⟨hrest, hhead'⟩ := Team.of_spares ⟨hps, htail⟩ hhead hspares
        refine ⟨k' :: ks, ⟨.cons ⟨hp', hfit'⟩ hrest.obeys, .cons hhead' htail⟩, hpath.among [] ks, ?_⟩
        intro l hfit hapart
        obtain ⟨hkl, hksl⟩ := List.forall_mem_cons.1 hapart
        obtain ⟨hrely, hfit, hkl'⟩ := hspares l hfit hkl
        exact ⟨hrely, hfit, List.forall_mem_cons.2 ⟨hkl', hksl⟩⟩
      | succ i =>
        obtain ⟨ks', hrest, hpath, hspares⟩ := ih ⟨hps, htail⟩ i
        -- the head is one of the others for the member that moves
        obtain ⟨hrely, hfit, hhead'⟩ := hspares k hp.2 fun l hl => D.apart_symm (hhead l hl)
        refine ⟨k :: ks', ⟨.cons ⟨hp.1.of_rely hrely, hfit⟩ hrest.obeys,
          .cons (fun l hl => D.apart_symm (hhead' l hl)) hrest.apart⟩, ?_, ?_⟩
        · have hbeside := hpath.among [k] []
          rwa [List.append_nil, List.append_nil] at hbeside
        · intro l hfit hapart
          obtain ⟨hkl, hksl⟩ := List.forall_mem_cons.1 hapart
          obtain ⟨hrely, hfit, hksl'⟩ := hspares l hfit hksl
          exact ⟨hrely, hfit, List.forall_mem_cons.2 ⟨hkl, hksl'⟩⟩

/-- The members run to their ends one after the other. -/
theorem Team.runInTurn (hteam : Team D post ps ks s) :
    ∃ ks', List.Forall₂ (fun a k => post a k ∧ D.fit k (runInTurn h ps s).2) (runInTurn h ps s).1 ks' ∧
      D.Exchanges ks s ks' (runInTurn h ps s).2 ∧ TeamSpares D ks ks' s (runInTurn h ps s).2 := by
  induction ps generalizing ks s with
  | nil =>
    obtain ⟨hobeys, -⟩ := hteam
    cases hobeys
    exact ⟨[], .nil, .refl, fun l hfit hapart => ⟨D.rely_refl _ _, hfit, hapart⟩⟩
  | cons p ps ih =>
    obtain ⟨hobeys, hpair⟩ := hteam
    cases hobeys with
    | @cons _ k _ ks hp hps =>
      obtain ⟨hhead, htail⟩ := List.pairwise_cons.1 hpair
      obtain ⟨k', hpost, hfit', hpath, hspares⟩ := hp.1.run hp.2
      obtain ⟨hrest, hhead'⟩ := Team.of_spares ⟨hps, htail⟩ hhead hspares
      obtain ⟨ks', hends, hpath', hspares'⟩ := ih hrest
      obtain ⟨-, hfit'', -⟩ := hspares' k' hfit' fun l hl => D.apart_symm (hhead' l hl)
      have hall : D.Exchanges (k :: ks) s (k' :: ks') _ :=
        (hpath.among [] ks).trans (by simpa using hpath'.among [k'] [])
      refine ⟨k' :: ks', .cons ⟨hpost, hfit''⟩ hends, hall, ?_⟩
      intro l hfit hapart
      obtain ⟨hkl, hksl⟩ := List.forall_mem_cons.1 hapart
      obtain ⟨hrely, hfit, hkl'⟩ := hspares l hfit hkl
      obtain ⟨hrely', hfit, hksl'⟩ := hspares' l hfit hksl
      exact ⟨D.rely_trans hrely hrely', hfit, List.forall_mem_cons.2 ⟨hkl', hksl'⟩⟩

/-- Along every schedule, the members of a team make allowed calls only, and each ends as it should with
    a claim that fits the last state. -/
theorem runTogether_obeys (schedule : List Nat) (hteam : Team D post ps ks s) :
    ∃ ks', List.Forall₂ (fun a k => post a k ∧ D.fit k (runTogether h schedule ps s).2)
        (runTogether h schedule ps s).1 ks' ∧
      D.Exchanges ks s ks' (runTogether h schedule ps s).2 := by
  induction schedule generalizing ps ks s with
  | nil =>
    obtain ⟨ks', hends, hpath, -⟩ := hteam.runInTurn
    exact ⟨ks', hends, hpath⟩
  | cons i schedule ih =>
    obtain ⟨ks', hteam', hpath, -⟩ := hteam.stepAt i
    obtain ⟨ks'', hends, hpath'⟩ := ih hteam'
    exact ⟨ks'', hends, hpath.trans hpath'⟩

end Group

end TreeImage
