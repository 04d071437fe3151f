import Mathlib.Algebra.BigOperators.Group.List.Basic
import Mathlib.Algebra.GroupWithZero.Nat
import Mathlib.Data.List.Perm.Basic
import Mathlib.Data.List.Nodup
import Mathlib.Data.List.Range
import TreeImage.Proofs.Program.Pool

set_option autoImplicit false

/-! # Dialogues

What a program and its handler say to each other is a list of exchanges: calls with their replies. A program
ends with a result after certain exchanges (`Program.Ends`), whatever state they were answered from, and a handler
leads from one state to another by them (`Handler.Leads`). When members of a group take turns, what is said is
made of what each of them says (`runTogether_ends`). For a pool this gives its jobs: numbers are handed out from
zero on, each once, until they are used up or a look finds the work halted (`runBounded_ends`). -/

namespace TreeImage

variable {I : Interface} {α β σ : Type} {h : Handler I σ}

/-- A call and what was replied. -/
abbrev Exchange (I : Interface) := (c : I.Call) × I.Reply c

variable {log log' : List (Exchange I)} {a : α} {b : β} {s s' t : σ}

/-! ## One program -/

/-- The program ends with a result after these exchanges, if some states answer like that. -/
inductive Program.Ends (h : Handler I σ) : Program I α → List (Exchange I) → α → Prop
  | done (a : α) : Ends h (.done a) [] a
  | call {c : I.Call} {next : I.Reply c → Program I α} {log : List (Exchange I)} {a : α} (t : σ)
      (rest : Ends h (next (h c t).1) log a) : Ends h (.call c next) (⟨c, (h c t).1⟩ :: log) a

/-- The handler leads from a state to another by these exchanges. -/
inductive Handler.Leads (h : Handler I σ) (s : σ) : List (Exchange I) → σ → Prop
  | nil : Leads h s [] s
  | snoc {log : List (Exchange I)} {t : σ} (before : Leads h s log t) (c : I.Call) :
      Leads h s (log ++ [⟨c, (h c t).1⟩]) (h c t).2

theorem Handler.Leads.append (hfirst : h.Leads s log t) (hrest : h.Leads t log' s') : h.Leads s (log ++ log') s' := by
  induction hrest with
  | nil => rwa [List.append_nil]
  | snoc _ c ih =>
    rw [← List.append_assoc]
    exact ih.snoc c

/-- Whatever holds from the start on holds where a reply is given. -/
theorem Handler.Leads.exists_replied (hleads : h.Leads s log s') (inv : σ → Prop) (hs : inv s)
    (hstep : ∀ c t, inv t → inv (h c t).2) : inv s' ∧ ∀ x ∈ log, ∃ t, inv t ∧ x = ⟨x.1, (h x.1 t).1⟩ := by
  induction hleads with
  | nil => exact ⟨hs, nofun⟩
  | @snoc log t _ c ih =>
    obtain ⟨ht, hreplied⟩ := ih
    refine ⟨hstep c t ht, fun x hx => ?_⟩
    rcases List.mem_append.1 hx with hx | hx
    · exact hreplied x hx
    · rw [List.mem_singleton.1 hx]
      exact ⟨t, ht, rfl⟩

namespace Program

theorem ends_done_iff {a' : α} : (done a : Program I α).Ends h log a' ↔ log = [] ∧ a' = a := by
  constructor
  · rintro ⟨⟩
    exact ⟨rfl, rfl⟩
  · rintro ⟨rfl, rfl⟩
    exact .done a'

theorem ends_call_iff {c : I.Call} {next : I.Reply c → Program I α} :
    (call c next).Ends h log a ↔
      ∃ t rest, log = ⟨c, (h c t).1⟩ :: rest ∧ (next (h c t).1).Ends h rest a := by
  constructor
  · rintro ⟨⟩
    exact ⟨_, _, rfl, ‹_›⟩
  · rintro ⟨t, rest, rfl, h⟩
    exact .call t h

/-- A program ends after its first part and its rest did. -/
theorem ends_bind_iff {p : Program I α} {f : α → Program I β} :
    (p.bind f).Ends h log b ↔ ∃ a first rest, log = first ++ rest ∧ p.Ends h first a ∧ (f a).Ends h rest b := by
  induction p generalizing log with
  | done a =>
    constructor
    · exact fun h => ⟨a, [], log, rfl, .done a, h⟩
    · rintro ⟨_, _, rest, rfl, ⟨⟩, h⟩
      exact h
  | call c next ih =>
    rw [call_bind, ends_call_iff]
    constructor
    · rintro ⟨t, rest, rfl, h⟩
      obtain ⟨a, first, rest, rfl, hfirst, hrest⟩ := (ih _).1 h
      exact ⟨a, _ :: first, rest, rfl, .call t hfirst, hrest⟩
    · rintro ⟨a, first, rest, rfl, hcall, hrest⟩
      obtain ⟨t, first, rfl, hfirst⟩ := ends_call_iff.1 hcall
      exact ⟨t, _, rfl, (ih _).2 ⟨a, first, rest, rfl, hfirst, hrest⟩⟩

/-- A program that is run ends after some exchanges, by which its handler leads to the last state. -/
theorem exists_ends (h : Handler I σ) (p : Program I α) (s : σ) :
    ∃ log, p.Ends h log (p.run h s).1 ∧ h.Leads s log (p.run h s).2 := by
  induction p generalizing s with
  | done a => exact ⟨[], .done a, .nil⟩
  | call c next ih =>
    obtain ⟨log, hends, hleads⟩ := ih (h c s).1 (h c s).2
    exact ⟨_, .call s hends, Handler.Leads.append (.snoc .nil c) hleads⟩

end Program

/-! ## What a program asks -/

namespace Program

/-- Every call of the program is of this sort, whatever states answered those before, and its result is as `told`
    says. -/
def Asks (h : Handler I σ) (sort : I.Call → Prop) (told : α → Prop) : Program I α → Prop
  | done a => told a
  | call c next => sort c ∧ ∀ s, (next (h c s).1).Asks h sort told

variable {sort : I.Call → Prop} {told : α → Prop}

theorem Asks.bind {p : Program I α} {f : α → Program I β} {told' : β → Prop} (hp : p.Asks h sort told)
    (hf : ∀ a, told a → (f a).Asks h sort told') : (p.bind f).Asks h sort told' := by
  induction p with
  | done a => exact hf a hp
  | call c next ih => exact ⟨hp.1, fun s => ih _ (hp.2 s)⟩

theorem asks_call {c : I.Call} (hc : sort c) : (call c done).Asks h sort fun _ => True := ⟨hc, fun _ => trivial⟩

/-- What it asks when it runs. -/
theorem Asks.ends {p : Program I α} (hp : p.Asks h sort told) (hends : p.Ends h log a) :
    (∀ x ∈ log, sort x.1) ∧ told a := by
  induction hends with
  | done a => exact ⟨nofun, hp⟩
  | call t _ ih =>
    obtain ⟨hlog, htold⟩ := ih (hp.2 t)
    exact ⟨List.forall_mem_cons.2 ⟨hp.1, hlog⟩, htold⟩

end Program

/-! ## A group -/

/-- The discipline of programs that take down what they say. -/
def Discipline.recording (h : Handler I σ) : Discipline h (List (Exchange I)) where
  fit _ _ := True
  rely _ _ _ := True
  may k k' c s := k' = k ++ [⟨c, (h c s).1⟩]
  apart _ _ := True
  rely_refl _ _ := trivial
  rely_trans _ _ := trivial
  apart_symm _ := trivial
  spares _ _ _ _ _ := ⟨trivial, trivial, trivial⟩

theorem Program.obeys_recording (p : Program I α) (before : List (Exchange I)) (s : σ) :
    p.Obeys (.recording h) (fun a k _ => ∃ log, k = before ++ log ∧ p.Ends h log a) before s := by
  induction p generalizing before s with
  | done a => exact ⟨[], before.append_nil.symm, .done a⟩
  | call c next ih =>
    intro s' _ _
    refine ⟨_, rfl, trivial, (ih (h c s').1 (before ++ [⟨c, (h c s').1⟩]) (h c s').2).imp ?_⟩
    rintro a _ _ ⟨log, rfl, hends⟩
    exact ⟨_, by rw [List.append_assoc]; rfl, .call s' hends⟩

/-- Everything that is said is taken down by one of the group. -/
theorem leads_of_recording {ks ks' : List (List (Exchange I))}
    (hpath : (Discipline.recording h).Exchanges ks s ks' s') :
    ∃ log, h.Leads s log s' ∧ ks'.flatten.Perm (ks.flatten ++ log) := by
  induction hpath with
  | refl => exact ⟨[], .nil, by rw [List.append_nil]⟩
  | @tail l r k k' c t _ hmay _ _ ih =>
    obtain ⟨log, hleads, hperm⟩ := ih
    obtain rfl : k' = k ++ [(⟨c, (h c t).1⟩ : Exchange I)] := hmay
    refine ⟨_, hleads.snoc c, ?_⟩
    have hmoved : (l ++ (k ++ [⟨c, (h c t).1⟩]) :: r).flatten.Perm ((l ++ k :: r).flatten ++ [⟨c, (h c t).1⟩]) := by
      simp only [List.flatten_append, List.flatten_cons, List.append_assoc]
      exact ((List.perm_append_comm).append_left k).append_left l.flatten
    rw [← List.append_assoc]
    exact hmoved.trans (hperm.append_right _)

/-- **What is said when programs take turns is made of what each of them says.** -/
theorem runTogether_ends (schedule : List Nat) (p : Program I α) (n : Nat) (s : σ) :
    ∃ talks : List (List (Exchange I) × α), talks.length = n ∧ (∀ talk ∈ talks, p.Ends h talk.1 talk.2) ∧
      (runTogether h schedule (List.replicate n p) s).1 = talks.map (·.2) ∧
      ∃ log, h.Leads s log (runTogether h schedule (List.replicate n p) s).2 ∧ log.Perm (talks.flatMap (·.1)) := by
  have hteam : Team (.recording h) (fun a k => p.Ends h k a) (List.replicate n p) (List.replicate n []) s := by
    constructor
    · rw [List.forall₂_iff_get]
      refine ⟨by rw [List.length_replicate, List.length_replicate], ?_⟩
      intro i _ _
      rw [List.get_eq_getElem, List.get_eq_getElem, List.getElem_replicate, List.getElem_replicate]
      refine ⟨(p.obeys_recording [] s).imp ?_, trivial⟩
      rintro a _ _ ⟨log, rfl, hends⟩
      exact hends
    · exact List.pairwise_replicate.2 (.inr trivial)
  obtain ⟨ks, hends, hpath⟩ := runTogether_obeys schedule hteam
  obtain ⟨log, hleads, hperm⟩ := leads_of_recording hpath
  have hlength := hpath.length_eq
  rw [List.length_replicate] at hlength
  refine ⟨ks.zip (runTogether h schedule (List.replicate n p) s).1, ?_, ?_, ?_, log, hleads, ?_⟩
  · rw [List.length_zip, hends.length_eq, hlength, Nat.min_self]
  · rintro ⟨k, a⟩ hmem
    exact (List.forall₂_zip hends.flip hmem).1
  · rw [← List.unzip_snd, List.unzip_zip hends.length_eq.symm]
  · have hlogs : (ks.zip (runTogether h schedule (List.replicate n p) s).1).flatMap (·.1) = ks.flatten := by
      rw [List.flatMap_def, ← List.unzip_fst, List.unzip_zip hends.length_eq.symm]
    rw [hlogs]
    refine (hperm.trans ?_).symm
    have hnothing : (List.replicate n ([] : List (Exchange I))).flatten = [] := by simp
    rw [hnothing, List.nil_append]

/-! ## A pool -/

/-- The number that was taken in an exchange of a pool. -/
def taken? : Exchange I.withCursor → Option Nat
  | ⟨.take, i⟩ => some i
  | ⟨.other _, _⟩ => none

/-- What was said in an exchange of a pool other than taking a number. -/
def spoken? : Exchange I.withCursor → Option (Exchange I)
  | ⟨.take, _⟩ => none
  | ⟨.other c, r⟩ => some ⟨c, r⟩

theorem filterMap_taken?_take (i : Nat) (log : List (Exchange I.withCursor)) :
    List.filterMap taken? (⟨.take, i⟩ :: log) = i :: log.filterMap taken? := rfl

theorem filterMap_spoken?_take (i : Nat) (log : List (Exchange I.withCursor)) :
    List.filterMap spoken? (⟨.take, i⟩ :: log) = log.filterMap spoken? := rfl

/-- The cursor hands out the numbers from zero on. -/
theorem leads_withCursor {log : List (Exchange I.withCursor)} {t : Nat × σ} (hleads : h.withCursor.Leads (0, s) log t) :
    h.Leads s (log.filterMap spoken?) t.2 ∧ log.filterMap taken? = List.range t.1 := by
  induction hleads with
  | nil => exact ⟨.nil, rfl⟩
  | @snoc log t _ c ih =>
    obtain ⟨hleads, htaken⟩ := ih
    rw [List.filterMap_append, List.filterMap_append, htaken]
    cases c with
    | take =>
      refine ⟨?_, List.range_succ.symm⟩
      rw [List.filterMap_cons_none rfl, List.filterMap_nil, List.append_nil]
      exact hleads
    | other c => exact ⟨hleads.snoc c, List.append_nil _⟩

theorem Program.ends_inPool {p : Program I α} {log : List (Exchange I.withCursor)}
    (hends : p.inPool.Ends h.withCursor log a) : p.Ends h (log.filterMap spoken?) a ∧ log.filterMap taken? = [] := by
  induction p generalizing log with
  | done a =>
    obtain ⟨rfl, rfl⟩ := ends_done_iff.1 hends
    exact ⟨.done _, rfl⟩
  | call c next ih =>
    obtain ⟨t, rest, rfl, hrest⟩ := ends_call_iff.1 hends
    obtain ⟨hends, htaken⟩ := ih _ hrest
    exact ⟨ends_call_iff.2 ⟨t.2, _, rfl, hends⟩, htaken⟩

/-- A program that begins with taking a number goes on with it. -/
theorem Program.exists_taken {next : Nat → Program I.withCursor α} {log : List (Exchange I.withCursor)}
    (hends : (Program.call (I := I.withCursor) .take next).Ends h.withCursor log a) :
    ∃ (i : Nat) (rest : List (Exchange I.withCursor)), log = ⟨.take, i⟩ :: rest ∧
      (next i).Ends h.withCursor rest a := by
  obtain ⟨t, rest, rfl, hrest⟩ := ends_call_iff.1 hends
  exact ⟨t.1, rest, rfl, hrest⟩

/-- A job that was done: its number, what was said for it, and its result. -/
structure JobDone (I : Interface) (α : Type) where
  index : Nat
  log : List (Exchange I)
  result : α

/-- A look whether the work is halted: what was said, and the finding. -/
structure Look (I : Interface) where
  log : List (Exchange I)
  halted : Bool

section Pool

variable {count fuel : Nat} {halted : Program I Bool} {job : Nat → Program I α} {looks looks' : List (Look I)}
  {jobs jobs' : List (JobDone I α)} {spare spare' : List Nat} {log log' : List (Exchange I.withCursor)}
  {batch batch' : List (Nat × α)}

/-- What workers said and brought back: they looked, did jobs, and took numbers that stand for no job. -/
structure PoolTalk (h : Handler I σ) (count : Nat) (halted : Program I Bool) (job : Nat → Program I α) (looks : List (Look I))
    (jobs : List (JobDone I α)) (spare : List Nat) (log : List (Exchange I.withCursor)) (batch : List (Nat × α)) :
    Prop where
  started : jobs ≠ [] → ∃ l ∈ looks, l.halted = false
  batch : batch = jobs.map fun j => (j.index, j.result)
  taken : (log.filterMap taken?).Perm (jobs.map (·.index) ++ spare)
  spoken : (log.filterMap spoken?).Perm (looks.flatMap (·.log) ++ jobs.flatMap (·.log))
  looks : ∀ l ∈ looks, halted.Ends h l.log l.halted
  jobs : ∀ j ∈ jobs, j.index < count ∧ (job j.index).Ends h j.log j.result
  spare : ∀ i ∈ spare, count ≤ i

/-- Why a worker stopped: it found the work halted, no job was left, or its rounds were used up. -/
def Stops (fuel : Nat) (looks : List (Look I)) (jobs : List (JobDone I α)) (spare : List Nat) : Prop :=
  (∃ l ∈ looks, l.halted = true) ∨ spare ≠ [] ∨ fuel ≤ jobs.length

/-- The parts in the middle change places. -/
theorem append_append_perm {γ : Type} (as bs cs ds : List γ) : (as ++ bs ++ (cs ++ ds)).Perm (as ++ cs ++ (bs ++ ds)) := by
  have hmiddle : (bs ++ (cs ++ ds)).Perm (cs ++ (bs ++ ds)) := by
    rw [← List.append_assoc, ← List.append_assoc]
    exact List.perm_append_comm.append_right ds
  rw [List.append_assoc, List.append_assoc]
  exact hmiddle.append_left as

theorem PoolTalk.nil : PoolTalk h count halted job [] [] [] [] [] :=
  ⟨fun hne => absurd rfl hne, rfl, .refl _, .refl _, nofun, nofun, nofun⟩

theorem PoolTalk.append (hfirst : PoolTalk h count halted job looks jobs spare log batch)
    (hrest : PoolTalk h count halted job looks' jobs' spare' log' batch') :
    PoolTalk h count halted job (looks ++ looks') (jobs ++ jobs') (spare ++ spare') (log ++ log') (batch ++ batch') where
  batch := by rw [List.map_append, hfirst.batch, hrest.batch]
  taken := by
    rw [List.filterMap_append, List.map_append]
    exact (hfirst.taken.append hrest.taken).trans (append_append_perm ..)
  spoken := by
    rw [List.filterMap_append, List.flatMap_append, List.flatMap_append]
    exact (hfirst.spoken.append hrest.spoken).trans (append_append_perm ..)
  looks := fun l hl => (List.mem_append.1 hl).elim (hfirst.looks l) (hrest.looks l)
  jobs := fun j hj => (List.mem_append.1 hj).elim (hfirst.jobs j) (hrest.jobs j)
  spare := fun i hi => (List.mem_append.1 hi).elim (hfirst.spare i) (hrest.spare i)
  started := fun hne => by
    by_cases hnone : jobs = []
    · obtain ⟨l, hl, hgoing⟩ := hrest.started fun hnone' => hne (by rw [hnone, hnone', List.append_nil])
      exact ⟨l, List.mem_append_right _ hl, hgoing⟩
    · obtain ⟨l, hl, hgoing⟩ := hfirst.started hnone
      exact ⟨l, List.mem_append_left _ hl, hgoing⟩

theorem Stops.append_right (h : Stops fuel looks jobs spare) (looks' : List (Look I)) (jobs' : List (JobDone I α))
    (spare' : List Nat) : Stops fuel (looks ++ looks') (jobs ++ jobs') (spare ++ spare') := by
  rcases h with ⟨l, hl, hhalted⟩ | hspare | hfuel
  · exact .inl ⟨l, List.mem_append_left _ hl, hhalted⟩
  · exact .inr (.inl fun hnil => hspare (List.append_eq_nil_iff.1 hnil).1)
  · exact .inr (.inr (hfuel.trans (List.length_append ▸ Nat.le_add_right _ _)))

theorem Stops.append_left (h : Stops fuel looks' jobs' spare') (looks : List (Look I)) (jobs : List (JobDone I α))
    (spare : List Nat) : Stops (jobs.length + fuel) (looks ++ looks') (jobs ++ jobs') (spare ++ spare') := by
  rcases h with ⟨l, hl, hhalted⟩ | hspare | hfuel
  · exact .inl ⟨l, List.mem_append_right _ hl, hhalted⟩
  · exact .inr (.inl fun hnil => hspare (List.append_eq_nil_iff.1 hnil).2)
  · refine .inr (.inr ?_)
    rw [List.length_append]
    omega

/-- What a worker says and brings back, round by round. -/
theorem worker_ends (hends : (worker count halted job fuel).Ends h.withCursor log batch) :
    ∃ looks jobs spare, PoolTalk h count halted job looks jobs spare log batch ∧ Stops fuel looks jobs spare := by
  induction fuel generalizing log batch with
  | zero =>
    obtain ⟨rfl, rfl⟩ := Program.ends_done_iff.1 hends
    exact ⟨[], [], [], .nil, .inr (.inr (Nat.le_refl 0))⟩
  | succ fuel ih =>
    obtain ⟨stop, look, rest, rfl, hlook, hends⟩ := Program.ends_bind_iff.1 hends
    obtain ⟨hlook, hlooked⟩ := Program.ends_inPool hlook
    cases stop with
    | true =>
      obtain ⟨rfl, rfl⟩ := Program.ends_done_iff.1 hends
      refine ⟨[⟨look.filterMap spoken?, true⟩], [], [], ⟨nofun, rfl, ?_, ?_, ?_, nofun, nofun⟩, .inl ⟨_, List.mem_singleton_self _, rfl⟩⟩
      · rw [List.append_nil, hlooked]
        rfl
      · simp
      · exact List.forall_mem_singleton.2 hlook
    | false =>
      rw [if_neg Bool.false_ne_true] at hends
      obtain ⟨i, rest, rfl, hround⟩ := Program.exists_taken hends
      clear hends
      split at hround
      · next hspare =>
        obtain ⟨rfl, rfl⟩ := Program.ends_done_iff.1 hround
        refine ⟨[⟨look.filterMap spoken?, false⟩], [], [i], ⟨nofun, rfl, ?_, ?_, ?_, nofun, ?_⟩, .inr (.inl (List.cons_ne_nil _ _))⟩
        · rw [List.filterMap_append, hlooked]
          rfl
        · rw [List.filterMap_append, filterMap_spoken?_take]
          simp
        · exact List.forall_mem_singleton.2 hlook
        · exact List.forall_mem_singleton.2 hspare
      · next hjob =>
        obtain ⟨a, said, rest, rfl, hdone, hrest⟩ := Program.ends_bind_iff.1 hround
        clear hround
        obtain ⟨hdone, hworked⟩ := Program.ends_inPool hdone
        obtain ⟨batch, rest, last, rfl, hworker, hlast⟩ := Program.ends_bind_iff.1 hrest
        clear hrest
        obtain ⟨rfl, rfl⟩ := Program.ends_done_iff.1 hlast
        obtain ⟨looks, jobs, spare, htalk, hstops⟩ := ih hworker
        have hround : PoolTalk h count halted job [⟨look.filterMap spoken?, false⟩] [⟨i, said.filterMap spoken?, a⟩] []
            (look ++ ⟨.take, i⟩ :: said) [(i, a)] := by
          refine ⟨fun _ => ⟨_, List.mem_singleton_self _, rfl⟩, rfl, ?_, ?_, ?_, ?_, nofun⟩
          · rw [List.filterMap_append, hlooked, filterMap_taken?_take, hworked]
            rfl
          · rw [List.filterMap_append, filterMap_spoken?_take]
            simp
          · exact List.forall_mem_singleton.2 hlook
          · exact List.forall_mem_singleton.2 ⟨Nat.not_le.1 hjob, hdone⟩
        refine ⟨_, _, _, ?_, Nat.add_comm fuel 1 ▸ hstops.append_left [⟨look.filterMap spoken?, false⟩]
          [⟨i, said.filterMap spoken?, a⟩] []⟩
        have hall := hround.append htalk
        rwa [List.append_assoc, List.cons_append, ← rest.append_nil] at hall

/-- What several workers of a pool say and bring back. -/
theorem exists_poolTalk {talks : List (List (Exchange I.withCursor) × List (Nat × α))}
    (hends : ∀ talk ∈ talks, (worker count halted job fuel).Ends h.withCursor talk.1 talk.2) :
    ∃ looks jobs spare, PoolTalk h count halted job looks jobs spare (talks.flatMap (·.1)) (talks.flatMap (·.2)) ∧
      (talks ≠ [] → Stops fuel looks jobs spare) := by
  induction talks with
  | nil => exact ⟨[], [], [], .nil, fun hne => absurd rfl hne⟩
  | cons talk talks ih =>
    obtain ⟨hhead, hrest⟩ := List.forall_mem_cons.1 hends
    obtain ⟨looks, jobs, spare, htalk, hstops⟩ := worker_ends hhead
    obtain ⟨looks', jobs', spare', htalk', -⟩ := ih hrest
    exact ⟨_, _, _, htalk.append htalk', fun _ => hstops.append_right looks' jobs' spare'⟩

/-- What becomes of the jobs of a pool: the numbers of those that were done are the first ones, and all unless the
    work was found halted. None is done unless it was found going on. Nothing else is said than in looks and for jobs. -/
structure PoolRun (h : Handler I σ) (count : Nat) (halted : Program I Bool) (job : Nat → Program I α) (s : σ)
    (looks : List (Look I)) (jobs : List (JobDone I α)) (log : List (Exchange I)) (results : List (Option α)) (s' : σ) :
    Prop where
  leads : h.Leads s log s'
  said : log.Perm (looks.flatMap (·.log) ++ jobs.flatMap (·.log))
  looked : ∀ l ∈ looks, halted.Ends h l.log l.halted
  worked : ∀ j ∈ jobs, (job j.index).Ends h j.log j.result
  numbers : ∃ n ≤ count, (jobs.map (·.index)).Perm (List.range n) ∧ (n < count → ∃ l ∈ looks, l.halted = true)
  started : jobs ≠ [] → ∃ l ∈ looks, l.halted = false
  results : results = (List.range count).map (resultAt (jobs.map fun j => (j.index, j.result)))

/-- What a pool does, and how far its cursor came. -/
theorem runBounded_ends_cursor (schedule : List Nat) (count workers : Nat) (halted : Program I Bool)
    (job : Nat → Program I α) (s : σ) : ∃ looks jobs log, PoolRun h count halted job s looks jobs log
      (runBounded h schedule count workers halted job s).1 (runBounded h schedule count workers halted job s).2 ∧
      (jobs.map (·.index)).Perm (List.range (min (runTogether h.withCursor schedule
        (List.replicate (poolSize count workers) (worker count halted job (count + 1))) (0, s)).2.1 count)) := by
  obtain ⟨talks, hlength, hends, hbatches, all, hleads, hperm⟩ := runTogether_ends (h := h.withCursor) schedule
    (worker count halted job (count + 1)) (poolSize count workers) (0, s)
  obtain ⟨looks, jobs, spare, htalk, hstops⟩ := exists_poolTalk hends
  obtain ⟨hleads, htaken⟩ := leads_withCursor hleads
  have hsome : talks ≠ [] := by
    rintro rfl
    rw [poolSize, List.length_nil] at hlength
    omega
  -- the numbers of jobs are those below the count among the numbers that were taken
  have hnumbers := htaken ▸ (hperm.filterMap taken?).trans htalk.taken
  generalize (runTogether h.withCursor schedule (List.replicate (poolSize count workers)
    (worker count halted job (count + 1))) (0, s)).2.1 = last at hnumbers ⊢
  have hjobs : (jobs.map (·.index)).Perm (List.range (min last count)) := by
    have hnodup := (List.nodup_append.1 (hnumbers.nodup_iff.1 List.nodup_range)).1
    refine (List.perm_ext_iff_of_nodup hnodup List.nodup_range).2 fun i => ?_
    rw [List.mem_range, Nat.lt_min]
    constructor
    · intro hi
      obtain ⟨j, hj, rfl⟩ := List.mem_map.1 hi
      exact ⟨List.mem_range.1 (hnumbers.mem_iff.2 (List.mem_append_left _ hi)), (htalk.jobs j hj).1⟩
    · rintro ⟨hi, hcount⟩
      refine (List.mem_append.1 (hnumbers.mem_iff.1 (List.mem_range.2 hi))).resolve_right fun hspare => ?_
      exact absurd hcount (Nat.not_lt.2 (htalk.spare i hspare))
  have hlast : min last count < count → spare = [] := by
    intro hlt
    refine List.eq_nil_iff_forall_not_mem.2 fun i hi => ?_
    have hi' := List.mem_range.1 (hnumbers.mem_iff.2 (List.mem_append_right _ hi))
    have := htalk.spare i hi
    omega
  refine ⟨looks, jobs, _, ⟨hleads, (hperm.filterMap spoken?).trans htalk.spoken, htalk.looks,
    fun j hj => (htalk.jobs j hj).2, ⟨min last count, Nat.min_le_right _ _, hjobs, ?_⟩, htalk.started, ?_⟩, hjobs⟩
  · intro hlt
    rcases hstops hsome with hhalted | hspare | hfuel
    · exact hhalted
    · exact absurd (hlast hlt) hspare
    · have hlength := hjobs.length_eq
      rw [List.length_map, List.length_range] at hlength
      omega
  · have hflat : (runTogether h.withCursor schedule (List.replicate (poolSize count workers)
        (worker count halted job (count + 1))) (0, s)).1.flatten = jobs.map fun j => (j.index, j.result) := by
      rw [hbatches, ← List.flatMap_def, htalk.batch]
    exact congrArg (fun batch => (List.range count).map (resultAt batch)) hflat

/-- **A pool does its first jobs, each once**, along every schedule and with any number of workers. -/
theorem runBounded_ends (schedule : List Nat) (count workers : Nat) (halted : Program I Bool) (job : Nat → Program I α)
    (s : σ) : ∃ looks jobs log, PoolRun h count halted job s looks jobs log
      (runBounded h schedule count workers halted job s).1 (runBounded h schedule count workers halted job s).2 := by
  obtain ⟨looks, jobs, log, hrun, -⟩ := runBounded_ends_cursor schedule count workers halted job s
  exact ⟨looks, jobs, log, hrun⟩

namespace PoolRun

variable {jobs : List (JobDone I α)} {said : List (Exchange I)} {results : List (Option α)}
  (hrun : PoolRun h count halted job s looks jobs said results s')

include hrun

theorem nodup_index : (jobs.map (·.index)).Nodup := by
  obtain ⟨n, -, hperm, -⟩ := hrun.numbers
  exact hperm.nodup_iff.2 List.nodup_range

theorem length_results : results.length = count := by
  rw [hrun.results, List.length_map, List.length_range]

/-- The result of a job is found under its number. -/
theorem getElem?_results {j : JobDone I α} (hj : j ∈ jobs) : results[j.index]? = some (some j.result) := by
  obtain ⟨n, hcount, hperm, -⟩ := hrun.numbers
  have hlt : j.index < count :=
    Nat.lt_of_lt_of_le (List.mem_range.1 (hperm.mem_iff.1 (List.mem_map_of_mem hj))) hcount
  have hlookup : resultAt (jobs.map fun j => (j.index, j.result)) j.index = some j.result := by
    have hmem : (j.index, j.result) ∈ jobs.map fun j => (j.index, j.result) := List.mem_map_of_mem hj
    obtain ⟨a, ha⟩ := Option.isSome_iff_exists.1 (isSome_resultAt hmem)
    obtain ⟨j', hj', heq⟩ := List.mem_map.1 (mem_of_resultAt ha)
    obtain ⟨hindex, rfl⟩ := Prod.mk.inj heq
    rw [ha, List.inj_on_of_nodup_map hrun.nodup_index hj' hj hindex]
  rw [hrun.results, List.getElem?_map, List.getElem?_range hlt, Option.map_some, hlookup]

/-- Every result is that of a job. -/
theorem exists_job {i : Nat} {a : α} (h : results[i]? = some (some a)) : ∃ j ∈ jobs, j.index = i ∧ j.result = a := by
  rw [hrun.results, List.getElem?_map] at h
  obtain ⟨i', hi', hlookup⟩ := Option.map_eq_some_iff.1 h
  obtain ⟨hlt, rfl⟩ := List.getElem?_eq_some_iff.1 hi'
  rw [List.getElem_range] at hlookup
  obtain ⟨j, hj, heq⟩ := List.mem_map.1 (mem_of_resultAt hlookup)
  obtain ⟨hindex, hresult⟩ := Prod.mk.inj heq
  exact ⟨j, hj, hindex, hresult⟩

/-- A job that was not done was left because the work was found halted. -/
theorem exists_halted {i : Nat} (h : results[i]? = some none) : ∃ l ∈ looks, l.halted = true := by
  obtain ⟨n, -, hperm, hhalted⟩ := hrun.numbers
  have hi : i < count := hrun.length_results ▸ (List.getElem?_eq_some_iff.1 h).1
  by_cases hn : n < count
  · exact hhalted hn
  · -- all jobs were done
    have hin : i ∈ jobs.map (·.index) := hperm.mem_iff.2 (List.mem_range.2 (by omega))
    obtain ⟨j, hj, rfl⟩ := List.mem_map.1 hin
    rw [hrun.getElem?_results hj] at h
    cases h

/-- What is made of the jobs that were done is made of the results, in another order. -/
theorem perm_results {γ : Type} (f : Nat → α → γ) : (jobs.map fun j => f j.index j.result).Perm
    ((List.range count).filterMap fun i => results[i]?.join.map (f i)) := by
  obtain ⟨n, hcount, hperm, -⟩ := hrun.numbers
  obtain ⟨rest, rfl⟩ := Nat.exists_eq_add_of_le hcount
  have hdone : (jobs.map fun j => f j.index j.result) =
      (jobs.map (·.index)).filterMap fun i => results[i]?.join.map (f i) := by
    rw [List.filterMap_map, ← List.filterMap_eq_map]
    refine List.filterMap_congr fun j hj => ?_
    rw [Function.comp_apply, Function.comp_apply, hrun.getElem?_results hj]
    rfl
  have hnothing : ((List.range rest).map (n + ·)).filterMap (fun i => results[i]?.join.map (f i)) = [] := by
    refine List.filterMap_eq_nil_iff.2 fun i hi => ?_
    obtain ⟨k, -, rfl⟩ := List.mem_map.1 hi
    cases hresult : results[n + k]?.join with
    | none => rfl
    | some a =>
      -- such a job would be one of the first
      obtain ⟨j, hj, hindex, -⟩ := hrun.exists_job (Option.join_eq_some_iff.1 hresult)
      have hlt := List.mem_range.1 (hperm.mem_iff.1 (List.mem_map_of_mem hj))
      omega
  rw [hdone, List.range_add, List.filterMap_append, hnothing, List.append_nil]
  exact hperm.filterMap _

end PoolRun

end Pool

end TreeImage
