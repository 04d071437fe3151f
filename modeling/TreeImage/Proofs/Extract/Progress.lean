import TreeImage.Proofs.Extract.Course

set_option autoImplicit false

/-! # What a run counts and tells

For every entry that it deals with, a run makes three calls in this order: it counts the entry, it counts the bytes
that are in place, and it tells the caller how far it came (`RunPlan.entryDone`). No other part of it makes such calls.
So the counting in a dialogue is that of some notes, one for each of those entries (`Noted`), and in a pool it is one
of the orders in which the notes of its jobs can be mixed (`RunPlan.Tells`). A pass over the slots notes those that it
settles, and no others (`Accounts`).

What the caller was told by the end of a run are the announcements in its dialogue, and so the numbers in them are
those of the notes. -/

namespace TreeImage

variable {options : ExtractOptions} {plan : RunPlan} {image : Image} {s s' t : RunState}
  {log log' : List (Exchange Session)} {α β : Type} {path : Path} {e : Entry} {slot slot' : Slot}
  {slots slots' rest rest' : List Slot}

/-! ## Notes -/

/-- A call that counts, or that tells the caller of the counts. -/
def SessionCall.isCount : SessionCall → Bool
  | .countEntry | .countBytes _ | .announce _ => true
  | _ => false

/-- The counting in a dialogue. -/
def counting (log : List (Exchange Session)) : List (Exchange Session) := log.filter fun x => SessionCall.isCount x.1

theorem counting_append (log log' : List (Exchange Session)) : counting (log ++ log') = counting log ++ counting log' :=
  List.filter_append ..

theorem filterMap_counting {f : Exchange Session → Option α} (hf : ∀ x, SessionCall.isCount x.1 = false → f x = none)
    (log : List (Exchange Session)) : (counting log).filterMap f = log.filterMap f := by
  rw [counting, List.filterMap_filter]
  refine List.filterMap_congr fun x _ => ?_
  cases hx : SessionCall.isCount x.1 with
  | true => rfl
  | false => exact (hf x hx).symm

/-- What was counted for an entry: its bytes that are in place, and what the entries and the bytes came to. -/
structure Note where
  path : String
  written : Nat
  done : Nat
  bytes : Nat

/-- What the caller is told of an entry. -/
def RunPlan.progress (plan : RunPlan) (n : Note) : Progress :=
  ⟨plan.rejected + n.done, plan.entriesTotal, n.bytes, plan.bytesTotal, n.path⟩

/-- What is said to count an entry. -/
def Note.exchanges (plan : RunPlan) (n : Note) : List (Exchange Session) :=
  [⟨.countEntry, n.done⟩, ⟨.countBytes n.written, n.bytes⟩, ⟨.announce (plan.progress n), ()⟩]

variable {notes notes' : List Note}

/-- The counting in a dialogue is that of these notes, in order. -/
def Noted (plan : RunPlan) (log : List (Exchange Session)) (notes : List Note) : Prop :=
  counting log = notes.flatMap (·.exchanges plan)

theorem Noted.append (h : Noted plan log notes) (h' : Noted plan log' notes') :
    Noted plan (log ++ log') (notes ++ notes') := by
  rw [Noted, counting_append, h, h', List.flatMap_append]

theorem sum_bytes_counting (log : List (Exchange Session)) :
    ((marks (counting log)).map Mark.bytes).sum = ((marks log).map Mark.bytes).sum := by
  induction log with
  | nil => rfl
  | cons x log ih =>
    have hcons : ∀ rest, marks (x :: rest) = (mark? x).toList ++ marks rest := fun rest => by
      rw [marks, List.filterMap_cons]
      cases mark? x <;> rfl
    rw [hcons log, List.map_append, List.sum_append, ← ih, counting, List.filter_cons]
    split
    · rw [hcons, List.map_append, List.sum_append]
      rfl
    · next hother =>
      obtain ⟨c, r⟩ := x
      cases c <;> first | exact absurd rfl hother | exact (Nat.zero_add _).symm

/-- The bytes that are counted for notes are those in them. -/
theorem sum_bytes_exchanges (plan : RunPlan) (notes : List Note) :
    ((marks (notes.flatMap (·.exchanges plan))).map Mark.bytes).sum = (notes.map (·.written)).sum := by
  induction notes with
  | nil => rfl
  | cons n notes ih =>
    rw [List.flatMap_cons, marks_append, List.map_append, List.sum_append, ih]
    rfl

/-! ## Accounts -/

/-- The bytes that a slot stands for: the size of its file, if that was put in place. -/
def Slot.written (slot : Slot) : Nat :=
  if slot.entry.isFile && slot.outcome.any (·.isWritten) then slot.entry.size.toNat else 0

theorem Outcome.isWritten_eq_false_of_isFailed {o : Outcome} (h : o.isFailed = true) : o.isWritten = false := by
  cases o with
  | failed kind message => rfl
  | _ => cases h

theorem Slot.written_eq_zero (h : slot.entry.isFile = true → slot.outcome.any (·.isWritten) = false) :
    slot.written = 0 := by
  rw [written, if_neg]
  rw [Bool.and_eq_true]
  rintro ⟨hfile, hwritten⟩
  exact absurd ((h hfile).symm.trans hwritten) nofun

/-- The path of a slot and its bytes. -/
abbrev Slot.account (slot : Slot) : String × Nat := (slot.entry.path, slot.written)

/-- The path in a note and its bytes. -/
abbrev Note.account (n : Note) : String × Nat := (n.path, n.written)

theorem exists_noted_flatMap {logs : α → List (Exchange Session)} {account : α → String × Nat} {as : List α}
    (h : ∀ a ∈ as, ∃ notes, Noted plan (logs a) notes ∧ notes.map (·.account) = [account a]) :
    ∃ notes, Noted plan (as.flatMap logs) notes ∧ notes.map (·.account) = as.map account := by
  induction as with
  | nil => exact ⟨[], rfl, rfl⟩
  | cons a as ih =>
    obtain ⟨⟨notes, hnotes, haccount⟩, hrest⟩ := List.forall_mem_cons.1 h
    obtain ⟨notes', hnotes', haccounts⟩ := ih hrest
    refine ⟨notes ++ notes', List.flatMap_cons ▸ hnotes.append hnotes', ?_⟩
    rw [List.map_append, haccount, haccounts]
    rfl

/-- The accounts of the slots that have an outcome. -/
def decided (slots : List Slot) : List (String × Nat) := (slots.filter (·.outcome.isSome)).map (·.account)

theorem decided_cons (slot : Slot) (slots : List Slot) : decided (slot :: slots) = decided [slot] ++ decided slots := by
  rw [decided, decided, decided, ← List.map_append, ← List.filter_append]
  rfl

theorem decided_of_open (h : slot.outcome = none) : decided [slot] = [] := by simp [decided, h]

theorem decided_of_isSome (h : slot.outcome.isSome = true) : decided [slot] = [slot.account] := by simp [decided, h]

theorem sum_decided (slots : List Slot) : ((decided slots).map (·.2)).sum = (slots.map (·.written)).sum := by
  induction slots with
  | nil => rfl
  | cons slot rest ih =>
    rw [decided_cons, List.map_append, List.sum_append, ih, List.map_cons, List.sum_cons]
    congr 1
    cases hout : slot.outcome with
    | none =>
      rw [decided_of_open hout, Slot.written_eq_zero fun _ => by rw [hout]; rfl]
      rfl
    | some o =>
      rw [decided_of_isSome (by rw [hout]; rfl)]
      exact Nat.add_zero _

/-- The notes account for what became of the slots: these are for the same entries, and the ones that have an outcome
    now are those that had one before, and those that were noted. -/
structure Accounts (slots slots' : List Slot) (notes : List Note) : Prop where
  entries : slots'.map (·.entry) = slots.map (·.entry)
  accounts : (decided slots ++ notes.map (·.account)).Perm (decided slots')

namespace Accounts

theorem refl (slots : List Slot) : Accounts slots slots [] := ⟨rfl, .of_eq (List.append_nil _)⟩

theorem trans {middle : List Slot} (h : Accounts slots middle notes) (h' : Accounts middle slots' notes') :
    Accounts slots slots' (notes ++ notes') := by
  refine ⟨h'.entries.trans h.entries, ?_⟩
  rw [List.map_append, ← List.append_assoc]
  exact (h.accounts.append_right _).trans h'.accounts

theorem cons (h : Accounts rest rest' notes) (slot : Slot) : Accounts (slot :: rest) (slot :: rest') notes := by
  refine ⟨congrArg (slot.entry :: ·) h.entries, ?_⟩
  rw [decided_cons, decided_cons slot rest', List.append_assoc]
  exact h.accounts.append_left _

/-- An open slot is settled with a note. -/
theorem settle (h : Accounts rest rest' notes) (hopen : slot.outcome = none) (hentry : slot'.entry = slot.entry)
    (hdecided : slot'.outcome.isSome = true) {n : Note} (hnoted : n.account = slot'.account) :
    Accounts (slot :: rest) (slot' :: rest') (n :: notes) := by
  refine ⟨by rw [List.map_cons, List.map_cons, hentry, h.entries], ?_⟩
  rw [decided_cons, decided_cons slot', decided_of_open hopen, decided_of_isSome hdecided, List.map_cons, hnoted,
    List.nil_append]
  exact List.perm_middle.trans (h.accounts.cons _)

/-- The bytes in the notes are those that the slots stand for now, and did not before. -/
theorem sum_written (h : Accounts slots slots' notes) :
    (slots.map (·.written)).sum + (notes.map (·.written)).sum = (slots'.map (·.written)).sum := by
  have hsums := (h.accounts.map (·.2)).sum_eq
  rw [List.map_append, List.sum_append, sum_decided, sum_decided, List.map_map] at hsums
  exact hsums

end Accounts

/-! ## Programs that take notes -/

/-- A program that counts nothing and tells nothing. -/
abbrev Program.CountsNothing (options : ExtractOptions) (p : Program Session α) : Prop :=
  p.Asks (RunState.handler options) (fun c => SessionCall.isCount c = false) fun _ => True

/-- The counting of the program is that of some notes, which are as `told` says. -/
def Program.Notes (options : ExtractOptions) (plan : RunPlan) (told : α → List Note → Prop) (p : Program Session α) :
    Prop :=
  ∀ log a, p.Ends (RunState.handler options) log a → ∃ notes, Noted plan log notes ∧ told a notes

namespace Program

variable {p : Program Session α} {f : α → Program Session β} {told : α → List Note → Prop}
  {told' : β → List Note → Prop}

theorem CountsNothing.counting_eq_nil {a : α} (hp : p.CountsNothing options)
    (hends : p.Ends (RunState.handler options) log a) : counting log = [] :=
  List.filter_eq_nil_iff.2 fun x hx => Bool.not_eq_true _ ▸ (hp.ends hends).1 x hx

theorem countsNothing_onFiles (p : Program Files α) : (Session.onFiles p).CountsNothing options := by
  induction p with
  | done a => trivial
  | call c next ih => exact ⟨rfl, fun s => ih _⟩

theorem CountsNothing.then (hp : p.CountsNothing options) (hf : ∀ a, (f a).CountsNothing options) :
    (p.bind f).CountsNothing options :=
  hp.bind fun a _ => hf a

theorem notes_done {a : α} (h : told a []) : (done a : Program Session α).Notes options plan told := by
  intro log a' hends
  obtain ⟨rfl, rfl⟩ := ends_done_iff.1 hends
  exact ⟨[], rfl, h⟩

theorem Notes.imp {told' : α → List Note → Prop} (hp : p.Notes options plan told)
    (himp : ∀ a notes, told a notes → told' a notes) : p.Notes options plan told' := by
  intro log a hends
  obtain ⟨notes, hnotes, htold⟩ := hp log a hends
  exact ⟨notes, hnotes, himp a notes htold⟩

theorem Notes.bind (hp : p.Notes options plan told)
    (hf : ∀ a notes, told a notes → (f a).Notes options plan fun b notes' => told' b (notes ++ notes')) :
    (p.bind f).Notes options plan told' := by
  intro log b hends
  obtain ⟨a, first, rest, rfl, hfirst, hrest⟩ := ends_bind_iff.1 hends
  obtain ⟨notes, hnotes, htold⟩ := hp _ _ hfirst
  obtain ⟨notes', hnotes', htold'⟩ := hf a notes htold _ _ hrest
  exact ⟨notes ++ notes', hnotes.append hnotes', htold'⟩

/-- Before a program that takes notes, another may say what is no counting. -/
theorem CountsNothing.bind_notes (hp : p.CountsNothing options) (hf : ∀ a, (f a).Notes options plan told') :
    (p.bind f).Notes options plan told' := by
  have hnothing : p.Notes options plan fun _ notes => notes = [] :=
    fun log a hends => ⟨[], hp.counting_eq_nil hends, rfl⟩
  refine hnothing.bind ?_
  rintro a _ rfl
  exact hf a

end Program

/-! ## The parts of a run -/

theorem countsNothing_isHalted : Session.isHalted.CountsNothing options := by
  refine Program.CountsNothing.then ⟨rfl, fun _ => trivial⟩ fun stopped => ?_
  cases stopped with
  | true => trivial
  | false => exact ⟨rfl, fun _ => trivial⟩

theorem countsNothing_prepare {cwd executable : Path} {target : Option Path} :
    (prepare options cwd executable image target).CountsNothing options := by
  refine Program.CountsNothing.then ⟨rfl, fun _ => trivial⟩ fun cancelled => ?_
  cases cancelled with
  | true => trivial
  | false =>
    simp only [Bool.false_eq_true, if_false]
    split
    · trivial
    · split
      · trivial
      · refine (Program.countsNothing_onFiles _).then fun result => ?_
        cases result <;> trivial

theorem countsNothing_fileFailed (err : ExtractError) : (plan.fileFailed err).CountsNothing options := by
  unfold RunPlan.fileFailed
  split
  · exact ⟨rfl, fun _ => ⟨rfl, fun _ => trivial⟩⟩
  · split
    · exact ⟨rfl, fun _ => trivial⟩
    · trivial

theorem countsNothing_placeDirectory (failures : RunPlan.Failures) :
    (plan.placeDirectory failures path e).CountsNothing options := by
  unfold RunPlan.placeDirectory
  split
  · trivial
  · refine (Program.countsNothing_onFiles _).then ?_
    rintro (err | _ | _)
    · show Program.CountsNothing options (if _ then _ else _)
      split
      · trivial
      · cases plan.options.stopOnFirstError with
        | true => exact ⟨rfl, fun _ => trivial⟩
        | false => trivial
    · trivial
    · trivial

theorem countsNothing_conclude {bytesWritten : Nat} : (plan.conclude slots bytesWritten).CountsNothing options := by
  have hfinish : ∀ slots, (RunPlan.finishDirectories slots).CountsNothing options := by
    intro slots
    induction slots with
    | nil => trivial
    | cons slot rest ih =>
      refine Program.CountsNothing.then ih fun rest' => Program.CountsNothing.then ?_ fun _ => trivial
      unfold RunPlan.finishDirectory
      split
      · refine (Program.countsNothing_onFiles _).then fun result => ?_
        cases result <;> trivial
      · trivial
  exact (hfinish slots).then fun _ => ⟨rfl, fun _ => trivial⟩

/-- An entry is counted with one note. -/
theorem notes_entryDone (name : String) (written : Nat) : (plan.entryDone name written).Notes options plan
    fun _ notes => ∃ done bytes, notes = [⟨name, written, done, bytes⟩] := by
  intro log _ hends
  obtain ⟨t, _, rfl, hbytes⟩ := Program.ends_call_iff.1 hends
  obtain ⟨u, _, rfl, hannounce⟩ := Program.ends_call_iff.1 hbytes
  obtain ⟨_, _, rfl, hdone⟩ := Program.ends_call_iff.1 hannounce
  obtain ⟨rfl, -⟩ := Program.ends_done_iff.1 hdone
  exact ⟨[⟨name, written, t.entriesDone + 1, u.bytesWritten + written⟩], rfl, _, _, rfl⟩

/-- Notes of entries that have no bytes in place. -/
def NothingWritten (notes : List Note) : Prop := ∀ n ∈ notes, n.written = 0

theorem NothingWritten.nil : NothingWritten [] := List.forall_mem_nil _

theorem NothingWritten.append (h : NothingWritten notes) (h' : NothingWritten notes') :
    NothingWritten (notes ++ notes') :=
  List.forall_mem_append.2 ⟨h, h'⟩

/-- An entry that has no bytes is counted, and the program goes on like this. -/
theorem notes_entryDone_bind {name : String} {f : Unit → Program Session α} {told : α → List Note → Prop}
    (hf : (f ()).Notes options plan fun a notes =>
      ∀ done bytes, told a (⟨name, 0, done, bytes⟩ :: notes)) :
    ((plan.entryDone name 0).bind f).Notes options plan told := by
  refine (notes_entryDone name 0).bind ?_
  rintro ⟨⟩ _ ⟨done, bytes, rfl⟩
  exact hf.imp fun _ _ htold => htold done bytes

/-- The notes account for a pass over the slots, of which the front was dealt with before. No bytes are written, and if
    the pass fails there are still slots that it came to. -/
def PassNotes (front slots : List Slot) (result : Except ExtractError (RunPlan.Failures × List Slot))
    (notes : List Note) : Prop :=
  NothingWritten notes ∧ ∃ slots', Accounts slots slots' notes ∧
    ∀ failures ended, result = .ok (failures, ended) → ended = front ++ slots'

theorem notes_keep {failures : RunPlan.Failures}
    (hrest : (plan.directoryPass failures rest).Notes options plan (PassNotes [] rest)) (slot : Slot) :
    Program.Notes options plan (PassNotes [slot] rest)
      (do return (← plan.directoryPass failures rest).map fun (failures, slots) => (failures, slot :: slots)) := by
  refine Program.Notes.bind hrest ?_
  rintro result notes ⟨hnothing, rest', haccounts, hended⟩
  refine Program.notes_done ?_
  rw [List.append_nil]
  refine ⟨hnothing, rest', haccounts, ?_⟩
  rintro failures ended hresult
  cases result with
  | error err => cases hresult
  | ok passed =>
    cases hresult
    exact congrArg (slot :: ·) (hended _ _ rfl)

/-- A slot that is kept as it is needs no note. -/
theorem PassNotes.cons {result : Except ExtractError (RunPlan.Failures × List Slot)}
    (h : PassNotes [slot] rest result notes) : PassNotes [] (slot :: rest) result notes := by
  obtain ⟨hnothing, rest', haccounts, hended⟩ := h
  exact ⟨hnothing, slot :: rest', haccounts.cons slot, hended⟩

/-- A directory that is settled is noted without bytes. -/
theorem PassNotes.settle {result : Except ExtractError (RunPlan.Failures × List Slot)}
    (h : PassNotes [slot'] rest result notes) (hentry : slot'.entry = slot.entry)
    (hdirectory : slot.entry.isFile = false) (hopen : slot.outcome = none) (hdecided : slot'.outcome.isSome = true)
    (done bytes : Nat) : PassNotes [] (slot :: rest) result (⟨slot.entry.path, 0, done, bytes⟩ :: notes) := by
  obtain ⟨hnothing, rest', haccounts, hended⟩ := h
  refine ⟨List.forall_mem_cons.2 ⟨rfl, hnothing⟩, slot' :: rest', haccounts.settle hopen hentry hdecided ?_, hended⟩
  have hzero : slot'.written = 0 :=
    Slot.written_eq_zero fun hfile => absurd ((hentry ▸ hdirectory).symm.trans hfile) nofun
  rw [Slot.account, hzero, hentry]

theorem notes_directoryPass (failures : RunPlan.Failures) :
    (plan.directoryPass failures slots).Notes options plan (PassNotes [] slots) := by
  have hend : ∀ {slots : List Slot} {result : Except ExtractError (RunPlan.Failures × List Slot)},
      (∀ failures ended, result = .ok (failures, ended) → ended = slots) → PassNotes [] slots result [] :=
    fun hended => ⟨.nil, _, .refl _, hended⟩
  induction slots generalizing failures with
  | nil =>
    refine Program.notes_done (hend ?_)
    rintro _ _ ⟨⟩
    rfl
  | cons slot rest ih =>
    rw [RunPlan.directoryPass]
    split
    · exact (notes_keep (ih _) slot).imp fun _ _ => .cons
    · next hnot =>
      split
      · exact (notes_keep (ih _) slot).imp fun _ _ => .cons
      · next hopen =>
        refine countsNothing_isHalted.bind_notes fun halted => ?_
        cases halted with
        | true =>
          refine Program.notes_done (hend ?_)
          rintro _ _ ⟨⟩
          rfl
        | false =>
          simp only [Bool.false_eq_true, if_false]
          split
          · exact (notes_keep (ih _) slot).imp fun _ _ => .cons
          · refine (countsNothing_placeDirectory failures).bind_notes ?_
            rintro (err | ⟨o, made⟩)
            · exact Program.notes_done (hend nofun)
            · refine notes_entryDone_bind ((notes_keep (ih _) _).imp fun _ _ hnotes => ?_)
              exact hnotes.settle rfl (Bool.not_eq_true _ ▸ hnot) hopen rfl

theorem notes_blockFiles (failures : RunPlan.Failures) : (plan.blockFiles failures slots).Notes options plan
    fun slots' notes => NothingWritten notes ∧ Accounts slots slots' notes := by
  induction slots with
  | nil => exact Program.notes_done ⟨.nil, .refl []⟩
  | cons slot rest ih =>
    have hrest : ∀ slot, Program.Notes options plan
        (fun slots' notes => NothingWritten notes ∧ ∃ rest', Accounts rest rest' notes ∧ slots' = slot :: rest')
        (do return slot :: (← plan.blockFiles failures rest)) := by
      intro slot
      refine Program.Notes.bind ih ?_
      rintro rest' notes ⟨hnothing, haccounts⟩
      refine Program.notes_done ?_
      rw [List.append_nil]
      exact ⟨hnothing, rest', haccounts, rfl⟩
    rw [RunPlan.blockFiles]
    split
    · refine (hrest slot).imp ?_
      rintro _ notes ⟨hnothing, rest', haccounts, rfl⟩
      exact ⟨hnothing, haccounts.cons slot⟩
    · next o ho =>
      refine notes_entryDone_bind ((hrest _).imp ?_)
      rintro _ notes ⟨hnothing, rest', haccounts, rfl⟩ done bytes
      split at ho
      · next hfile =>
        rw [Bool.and_eq_true, Option.isNone_iff_eq_none] at hfile
        have hzero : Slot.written { slot with outcome := some o } = 0 :=
          Slot.written_eq_zero fun _ => Outcome.isWritten_eq_false_of_isFailed (isFailed_of_blocked? ho)
        refine ⟨List.forall_mem_cons.2 ⟨rfl, hnothing⟩, haccounts.settle hfile.2 (by rfl) (by rfl) ?_⟩
        rw [Slot.account, hzero]
      · cases ho

/-- A file is counted with one note, after it was dealt with. -/
theorem notes_placeFile : (plan.placeFile image path e).Notes options plan fun o notes =>
    ∃ done bytes, notes = [⟨e.path, if o.isWritten then (image.content e).length else 0, done, bytes⟩] := by
  refine (Program.countsNothing_onFiles _).bind_notes fun result => ?_
  have hend : ∀ o : Outcome, Program.Notes options plan
      (fun o notes => ∃ done bytes,
        notes = [⟨e.path, if o.isWritten then (image.content e).length else 0, done, bytes⟩])
      (do plan.entryDone e.path (if o.isWritten then (image.content e).length else 0); return o) := by
    intro o
    refine (notes_entryDone _ _).bind fun _ notes hnotes => Program.notes_done ?_
    rwa [List.append_nil]
  cases result with
  | ok o => exact hend o
  | error err => exact (countsNothing_fileFailed err).bind_notes hend

/-! ## The counting of a run -/

/-- The run comes from one state to the other, and its counting is that of some notes, mixed in some way. -/
def RunPlan.Counts (plan : RunPlan) (options : ExtractOptions) (s s' : RunState) : Prop :=
  ∃ (log : List (Exchange Session)) (notes : List Note), (RunState.handler options).Leads s log s' ∧
    (counting log).Perm (notes.flatMap (·.exchanges plan))

theorem RunPlan.Counts.trans (h : plan.Counts options s t) (h' : plan.Counts options t s') :
    plan.Counts options s s' := by
  obtain ⟨log, notes, hleads, hnotes⟩ := h
  obtain ⟨log', notes', hleads', hnotes'⟩ := h'
  refine ⟨log ++ log', notes ++ notes', hleads.append hleads', ?_⟩
  rw [counting_append, List.flatMap_append]
  exact hnotes.append hnotes'

/-- One list is the other, mixed in some way; a single worker keeps its order. -/
def ExtractOptions.Mixes {α : Type} (options : ExtractOptions) (as bs : List α) : Prop :=
  as.Perm bs ∧ (options.workers ≤ 1 → as = bs)

namespace ExtractOptions.Mixes

variable {as as' bs bs' cs : List α}

theorem of_eq (h : as = bs) : options.Mixes as bs := ⟨.of_eq h, fun _ => h⟩

theorem trans (h : options.Mixes as bs) (h' : options.Mixes bs cs) : options.Mixes as cs :=
  ⟨h.1.trans h'.1, fun hworkers => (h.2 hworkers).trans (h'.2 hworkers)⟩

theorem symm (h : options.Mixes as bs) : options.Mixes bs as := ⟨h.1.symm, fun hworkers => (h.2 hworkers).symm⟩

theorem append (h : options.Mixes as bs) (h' : options.Mixes as' bs') : options.Mixes (as ++ as') (bs ++ bs') :=
  ⟨h.1.append h'.1, fun hworkers => by rw [h.2 hworkers, h'.2 hworkers]⟩

theorem map (h : options.Mixes as bs) (f : α → β) : options.Mixes (as.map f) (bs.map f) :=
  ⟨h.1.map f, fun hworkers => by rw [h.2 hworkers]⟩

theorem filterMap (h : options.Mixes as bs) (f : α → Option β) : options.Mixes (as.filterMap f) (bs.filterMap f) :=
  ⟨h.1.filterMap f, fun hworkers => by rw [h.2 hworkers]⟩

end ExtractOptions.Mixes

/-- The run comes from one state to the other, and its counting is that of these notes, mixed in some way. One worker
    takes them in this order. -/
def RunPlan.Tells (plan : RunPlan) (options : ExtractOptions) (s s' : RunState) (notes : List Note) : Prop :=
  ∃ log : List (Exchange Session), (RunState.handler options).Leads s log s' ∧
    options.Mixes (counting log) (notes.flatMap (·.exchanges plan))

namespace RunPlan.Tells

theorem trans (h : plan.Tells options s t notes) (h' : plan.Tells options t s' notes') :
    plan.Tells options s s' (notes ++ notes') := by
  obtain ⟨log, hleads, hnotes⟩ := h
  obtain ⟨log', hleads', hnotes'⟩ := h'
  refine ⟨log ++ log', hleads.append hleads', ?_⟩
  rw [counting_append, List.flatMap_append]
  exact hnotes.append hnotes'

theorem of_noted (hleads : (RunState.handler options).Leads s log s') (hnoted : Noted plan log notes) :
    plan.Tells options s s' notes :=
  ⟨log, hleads, .of_eq hnoted⟩

theorem counts (h : plan.Tells options s s' notes) : plan.Counts options s s' := by
  obtain ⟨log, hleads, hnotes⟩ := h
  exact ⟨log, notes, hleads, hnotes.1⟩

theorem bytesWritten_eq (h : plan.Tells options s s' notes) :
    s'.bytesWritten = s.bytesWritten + (notes.map (·.written)).sum := by
  obtain ⟨log, hleads, hnotes, -⟩ := h
  have hsums : ((marks (counting log)).map Mark.bytes).sum =
      ((marks (notes.flatMap (·.exchanges plan))).map Mark.bytes).sum := ((hnotes.filterMap mark?).map _).sum_eq
  rw [hleads.bytesWritten_eq, ← sum_bytes_counting, hsums, sum_bytes_exchanges]

end RunPlan.Tells

theorem Program.CountsNothing.tells {p : Program Session α} {a : α} (hp : p.CountsNothing options) (plan : RunPlan)
    (hrun : p.run (RunState.handler options) s = (a, s')) : plan.Tells options s s' [] := by
  obtain ⟨log, hends, hleads⟩ := Program.exists_ends (RunState.handler options) p s
  rw [hrun] at hends hleads
  exact .of_noted hleads (hp.counting_eq_nil hends)

theorem Program.Notes.tells {p : Program Session α} {told : α → List Note → Prop} {a : α}
    (hp : p.Notes options plan told) (hrun : p.run (RunState.handler options) s = (a, s')) :
    ∃ notes, plan.Tells options s s' notes ∧ told a notes := by
  obtain ⟨log, hends, hleads⟩ := Program.exists_ends (RunState.handler options) p s
  rw [hrun] at hends hleads
  obtain ⟨notes, hnoted, htold⟩ := hp log a hends
  exact ⟨notes, .of_noted hleads hnoted, htold⟩

theorem NothingWritten.sum_eq_zero (h : NothingWritten notes) : (notes.map (·.written)).sum = 0 :=
  List.sum_eq_zero fun w hw => by
    obtain ⟨n, hn, rfl⟩ := List.mem_map.1 hw
    exact h n hn

/-! ## What the caller is told -/

/-- What the caller is told in an exchange. -/
def announcement? : Exchange Session → Option Progress
  | ⟨.announce p, _⟩ => some p
  | _ => none

/-- What the caller is told in a dialogue, in order. -/
def announcements (log : List (Exchange Session)) : List Progress := log.filterMap announcement?

theorem announcements_append (log log' : List (Exchange Session)) :
    announcements (log ++ log') = announcements log ++ announcements log' :=
  List.filterMap_append

theorem announcements_counting (log : List (Exchange Session)) : announcements (counting log) = announcements log := by
  refine filterMap_counting (fun x hx => ?_) log
  obtain ⟨c, r⟩ := x
  cases c <;> first | rfl | cases hx

/-- The listener of a run is told what is announced; without one, nobody is told. -/
theorem Handler.Leads.announced (h : (RunState.handler options).Leads s log s') :
    s'.announced = s.announced ++ if options.onProgress.isSome then announcements log else [] := by
  induction h with
  | nil => simp [announcements]
  | @snoc log t _ c ih =>
    have hsame : ∀ u : RunState, u.trace = t.trace → announcement? ⟨c, (RunState.handler options c t).1⟩ = none →
        u.announced = s.announced ++ if options.onProgress.isSome then announcements (log ++
          [⟨c, (RunState.handler options c t).1⟩]) else [] := by
      intro u hu hnone
      rw [announcements_append, announcements, announcements, List.filterMap_cons_none hnone, List.filterMap_nil,
        List.append_nil, ← announcements, ← ih, RunState.announced, RunState.announced, hu]
    cases c with
    | announce p =>
      show (t.tell p options.onProgress).announced = _
      cases hlistener : options.onProgress with
      | none =>
        rw [hlistener] at ih
        exact ih
      | some listener =>
        rw [hlistener] at ih
        have htold : (t.tell p (some listener)).announced = t.announced ++ [p] := List.filterMap_append
        rw [htold, ih, announcements_append, List.append_assoc]
        rfl
    | file c =>
      have hcalled : (RunState.handler options (.file c) t).2.announced = t.announced ++ [] := List.filterMap_append
      exact (hcalled.trans (List.append_nil _)).trans (hsame t rfl rfl)
    | isCancelled => exact hsame _ (RunState.fs_lookAtToken _ _).2 rfl
    | _ => exact hsame _ rfl rfl

theorem announcements_notes (plan : RunPlan) (notes : List Note) :
    announcements (notes.flatMap (·.exchanges plan)) = notes.map plan.progress := by
  induction notes with
  | nil => rfl
  | cons n notes ih =>
    rw [List.flatMap_cons, announcements_append, ih]
    rfl

end TreeImage
