import TreeImage.Extract.Run
import TreeImage.Proofs.Extract.Calm
import TreeImage.Proofs.Extract.Homes
import TreeImage.Proofs.FileSystem.NewDirectories

set_option autoImplicit false

/-! # What the directory pass does

Below a real root without links, bringing a directory entry to its destination makes a directory at its
home or changes nothing. `DirectorySettled` says how it can end, with what stood at the home before and
after. -/

namespace TreeImage

open FileSystem

variable {names real d r : RealPath} {n : Name} {fs : FileSystem} {p : Path} {e : Entry}
  {plan : RunPlan} {options : ExtractOptions} {s s' : RunState}

/-! ## One directory -/

/-- A program goes on with the answer to its first call. -/
theorem run_ask {α : Type} (c : FileCall) {reply : FileCall.Reply c} {fs' : FileSystem}
    (h : fs.answer c = (reply, fs')) (next : FileCall.Reply c → Program Files α) :
    (Program.bind (.call (I := Files) c .done) next).run answer fs = (next reply).run answer fs' := by
  show (next (fs.answer c).1).run answer (fs.answer c).2 = _
  rw [h]

theorem answer_makeDirectory {fs' : FileSystem} (h : fs.makeDirectory p = .ok fs') :
    fs.answer (.makeDirectory p) = (.ok (), fs') := by
  rw [answer, h]
  rfl

theorem answer_makeDirectory_error {err : Refusal} (h : fs.makeDirectory p = .error err) :
    fs.answer (.makeDirectory p) = (.error err, fs) := by
  rw [answer, h]
  rfl

theorem run_confirmWithin (hreal : real.IsProper) (hdproper : d.IsProper) (hin : real <+: d)
    (hd : fs.LeadsTo p d) (entry : String) :
    (confirmWithin real.toPath p entry).run answer fs = (.ok d.toPath, fs) := by
  have hanswer : fs.answer (.realPath p) = (.ok d.toPath, fs) := by rw [answer, hd.realPath]
  rw [confirmWithin]
  refine (run_ask (.realPath p) hanswer _).trans ?_
  show Program.run (I := Files) answer (if d.toPath.isWithin real.toPath then _ else _) fs = _
  rw [if_pos ((RealPath.isWithin_toPath hreal hdproper).2 hin)]
  rfl

theorem run_confirmParent (h : fs.Names p d n) (hreal : real.IsProper) (hin : real <+: d)
    (entry : String) : (confirmParent real.toPath p entry).run answer fs = (.ok (), fs) := by
  obtain ⟨r, hproper, rfl, hd⟩ := h
  have hdproper := isProper_of_resolve (RealPath.isProper_append.1 hproper).1 hd.1
  rw [confirmParent, RealPath.parent?_toPath hproper]
  refine (Program.run_bind _ _ _ _).trans ?_
  rw [run_confirmWithin hreal hdproper hin hd entry]
  rfl

/-- How bringing a directory entry called `n` to its destination can end: what stood there, the result, and
    what stands there afterwards. `there` says whether the directory that it is to lie in is there. -/
inductive DirectorySettled (n : Name) (there : Prop) :
    Option Node → Except ExtractError DirectoryState → Option Node → Prop
  | astray {v : Option Node} {err : ExtractError} (hthere : ¬there) :
      DirectorySettled n there v (.error err) v
  | refused {v : Option Node} {err : ExtractError} (hn : ¬IsAcceptable n) :
      DirectorySettled n there v (.error err) v
  | obstructed {x : Node} {err : ExtractError} (hx : x.kind ≠ .directory) :
      DirectorySettled n there (some x) (.error err) (some x)
  | existing {mode : UInt32} (hn : IsAcceptable n) :
      DirectorySettled n there (some (.directory mode)) (.ok .existing) (some (.directory mode))
  | created {mode : UInt32} (hthere : there) (hn : IsAcceptable n) :
      DirectorySettled n there none (.ok .created) (some (.directory mode))

namespace DirectorySettled

variable {there : Prop} {v v' : Option Node} {result : Except ExtractError DirectoryState} {fs' : FileSystem} {q : RealPath}

theorem of_created (h : DirectorySettled n there v (.ok .created) v') :
    v = none ∧ ∃ mode, v' = some (.directory mode) := by
  cases h
  exact ⟨rfl, _, rfl⟩

theorem there_of_created (h : DirectorySettled n there v (.ok .created) v') : there ∧ IsAcceptable n := by
  cases h with
  | created hthere hn => exact ⟨hthere, hn⟩

theorem of_existing (h : DirectorySettled n there v (.ok .existing) v') : ∃ mode, v = some (.directory mode) := by
  cases h
  exact ⟨_, rfl⟩

theorem eq_of_ne (h : DirectorySettled n there v result v') (hne : result ≠ .ok .created) : v' = v := by
  cases h with
  | created => exact absurd rfl hne
  | _ => rfl

/-- After it a directory stands there, unless it failed. -/
theorem of_ok {state : DirectoryState} (h : DirectorySettled n there v (.ok state) v') :
    IsAcceptable n ∧ ∃ mode, v' = some (.directory mode) := by
  cases h with
  | existing hn => exact ⟨hn, _, rfl⟩
  | created _ hn => exact ⟨hn, _, rfl⟩

/-- What is made is what stands there now and did not stand there before. -/
theorem makesDirectories (h : DirectorySettled n there (fs.get? q) result (fs'.get? q))
    (hother : AgreeOutside (· = q) fs fs') :
    MakesDirectories (fun t => result = .ok .created ∧ t = q) fs fs' := by
  constructor
  · refine ⟨hother.cwd, hother.executable, ?_⟩
    intro t ht
    by_cases hq : t = q
    · subst hq
      exact h.eq_of_ne fun hcreated => ht ⟨hcreated, rfl⟩
    · exact hother.get? t hq
  · rintro _ ⟨rfl, rfl⟩
    obtain ⟨hnone, mode, hmode⟩ := h.of_created
    exact ⟨hnone, isDirectoryAt_iff.2 ⟨mode, hmode⟩⟩

end DirectorySettled

/-- What letting a directory stand at a place does. -/
theorem run_ensureDirectory (h : fs.Names p d n)
    (hlink : ∀ target, fs.get? (d ++ [n]) ≠ some (.symlink target)) {there : Prop} (hthere : there) :
    ∃ result fs', (ensureDirectory p none).run answer fs = (result, fs') ∧
      DirectorySettled n there (fs.get? (d ++ [n])) (result.mapError directoryError)
        (fs'.get? (d ++ [n])) ∧
      AgreeOutside (· = d ++ [n]) fs fs' := by
  have hask : ∀ next : Except Refusal NodeInfo → Program Files (Except FsError DirectoryState),
      (Program.bind (.call (I := Files) (.inspect false p) .done) next).run answer fs =
        (next (fs.inspect false p)).run answer fs := fun next => run_ask (.inspect false p) rfl next
  rw [ensureDirectory]
  by_cases hn : IsAcceptable n
  · cases hget : fs.get? (d ++ [n]) with
    | none =>
      have hinspect := inspect_of_find_error (h.find_free hn hget)
      obtain ⟨mode, -, hmake⟩ := h.makeDirectory_free hn hget
      have hanswer := answer_makeDirectory hmake
      refine ⟨.ok .created, _, ?_, ?_, agreeOutside_put fs (d ++ [n]) (.directory (newDirectoryMode mode))⟩
      · refine (hask _).trans ?_
        rw [hinspect]
        exact run_ask _ hanswer _
      · rw [get?_put_self]
        exact .created hthere hn
    | some x =>
      have hinspect := inspect_of_find (h.find hn hget)
      have hsame := AgreeOutside.refl (· = d ++ [n]) fs
      cases x with
      | directory mode =>
        refine ⟨.ok .existing, fs, ?_, ?_, hsame⟩
        · refine (hask _).trans ?_
          rw [hinspect]
          rfl
        · rw [hget]
          exact .existing hn
      | symlink target => exact absurd hget (hlink target)
      | file mode content =>
        refine ⟨.error (.notADirectory p), fs, ?_, ?_, hsame⟩
        · refine (hask _).trans ?_
          rw [hinspect]
          rfl
        · rw [hget]
          exact .obstructed (by simp [Node.kind])
      | special mode =>
        refine ⟨.error (.notADirectory p), fs, ?_, ?_, hsame⟩
        · refine (hask _).trans ?_
          rw [hinspect]
          rfl
        · rw [hget]
          exact .obstructed (by simp [Node.kind])
  · have hinspect := inspect_of_find_error (h.find_refused hn)
    refine ⟨.error (.read p ⟨if n.contains 0 then .nulByte else .nameTooLong, none⟩), fs, ?_, .refused hn, .refl _ fs⟩
    refine (hask _).trans ?_
    rw [hinspect]
    cases n.contains 0 <;> rfl

/-- **What bringing a directory entry to its destination does**, where its directory is there. -/
theorem run_createDirectory (h : fs.Names p d n) (hreal : real.IsProper) (hin : real <+: d)
    (hlink : ∀ target, fs.get? (d ++ [n]) ≠ some (.symlink target)) {there : Prop} (hthere : there)
    (entry : String) :
    ∃ result fs', (createDirectory real.toPath p entry).run answer fs = (result, fs') ∧
      DirectorySettled n there (fs.get? (d ++ [n])) result (fs'.get? (d ++ [n])) ∧
      AgreeOutside (· = d ++ [n]) fs fs' := by
  obtain ⟨result, fs', hensure, hsettled, hother⟩ := run_ensureDirectory h hlink hthere
  refine ⟨result.mapError directoryError, fs', ?_, hsettled, hother⟩
  rw [createDirectory]
  refine (Program.run_bind _ _ _ _).trans ?_
  rw [run_confirmParent h hreal hin entry]
  refine (Program.run_bind _ _ _ _).trans ?_
  rw [hensure]
  cases result with
  | error err => rfl
  | ok state =>
    -- the directory that stands there now is where the path leads
    have hkeeps := (hsettled.makesDirectories hother).keeps
    obtain ⟨hn, mode, hmode⟩ := hsettled.of_ok
    obtain ⟨r, hproper, rfl, hd⟩ := hkeeps.names h
    have hdproper := isProper_of_resolve (RealPath.isProper_append.1 hproper).1 hd.1
    have hleads := leadsTo_entry hproper hd hn.1 hn.2 (isDirectoryAt_iff.2 ⟨mode, hmode⟩)
    refine (Program.run_bind _ _ _ _).trans ?_
    rw [run_confirmWithin hreal (RealPath.isProper_append.2 ⟨hdproper, (RealPath.isProper_append.1 hproper).2⟩)
      (hin.trans (List.prefix_append d [n])) hleads entry]
    rfl

theorem run_isDirectory (p : Path) (fs : FileSystem) :
    (Files.isDirectory p).run answer fs = (fs.isDirectory p, fs) := by
  refine (run_ask (.inspect true p) rfl _).trans ?_
  rw [isDirectory]
  cases fs.inspect true p <;> rfl

theorem run_ensureDirectory_astray (hproper : RealPath.IsProper (r ++ [n]))
    (h : ¬∃ d, fs.LeadsTo r.toPath d) :
    ∃ err, (ensureDirectory (RealPath.toPath (r ++ [n])) none).run answer fs = (.error err, fs) := by
  have hask : ∀ next : Except Refusal NodeInfo → Program Files (Except FsError DirectoryState),
      (Program.bind (.call (I := Files) (.inspect false (RealPath.toPath (r ++ [n]))) .done) next).run answer fs =
        (next (fs.inspect false (RealPath.toPath (r ++ [n])))).run answer fs :=
    fun next => run_ask (.inspect false (RealPath.toPath (r ++ [n]))) rfl next
  cases hinspect : fs.inspect false (RealPath.toPath (r ++ [n])) with
  | ok info =>
    obtain ⟨q, x, hfind, -⟩ := inspect_eq_ok hinspect
    exact absurd (leadsTo_of_find_entry hproper hfind) h
  | error err =>
    rw [hinspect] at hask
    cases err with
    | notFound =>
      cases hmake : fs.makeDirectory (RealPath.toPath (r ++ [n])) with
      | ok fs' =>
        obtain ⟨d, _, hd, -⟩ := makeDirectory_entry_eq_ok hproper hmake
        exact absurd ⟨d, hd⟩ h
      | error err =>
        have hmissing : ∀ next : Except Refusal Unit → Program Files (Except FsError DirectoryState),
            (Program.bind (.call (I := Files) (.makeDirectory (RealPath.toPath (r ++ [n]))) .done) next).run
              answer fs = (next (.error err)).run answer fs :=
          fun next => run_ask _ (answer_makeDirectory_error hmake) next
        cases err with
        | alreadyExists =>
          refine ⟨.createDirectory (RealPath.toPath (r ++ [n])) .alreadyExists, (hask _).trans ((hmissing _).trans ?_)⟩
          refine (Program.run_bind _ _ _ _).trans ?_
          have hdir : fs.isDirectory (RealPath.toPath (r ++ [n])) = false := by
            rw [← Bool.not_eq_true, isDirectory_iff]
            rintro ⟨d, hd⟩
            obtain ⟨mode, hfind⟩ := hd.find
            exact h (leadsTo_of_find_entry hproper hfind)
          rw [run_isDirectory, hdir]
          rfl
        | _ => exact ⟨_, (hask _).trans (hmissing _)⟩
    | _ => exact ⟨_, hask _⟩

/-- **A directory entry whose directory is not there fails**, and nothing changes. -/
theorem run_createDirectory_astray (hreal : real.IsProper) (hproper : RealPath.IsProper (r ++ [n]))
    (h : ¬∃ d, fs.LeadsTo r.toPath d) (entry : String) :
    ∃ err, (createDirectory real.toPath (RealPath.toPath (r ++ [n])) entry).run answer fs =
      (.error err, fs) := by
  obtain ⟨err, hensure⟩ := run_ensureDirectory_astray hproper h
  have hasks : (confirmParent real.toPath (RealPath.toPath (r ++ [n])) entry).Obeys asking _ () fs :=
    confirmParent_obeys letsAsk_asking hreal hproper
  obtain ⟨-, ⟨-, hfs, -, -⟩, -⟩ := hasks.run trivial
  rw [createDirectory]
  cases hconfirm : (confirmParent real.toPath (RealPath.toPath (r ++ [n])) entry).run answer fs with
  | mk result fs' =>
    rw [hconfirm] at hfs
    obtain rfl : fs' = fs := hfs
    cases result with
    | error err =>
      refine ⟨err, (Program.run_bind _ _ _ _).trans ?_⟩
      rw [hconfirm]
      rfl
    | ok _ =>
      refine ⟨directoryError err, (Program.run_bind _ _ _ _).trans ?_⟩
      rw [hconfirm]
      refine (Program.run_bind _ _ _ _).trans ?_
      rw [hensure]
      rfl

/-! ## One slot -/

variable {slot slot' : Slot} {rest rest' slots slots' : List Slot} {failures failures' : RunPlan.Failures}
  {fs₁ fs' : FileSystem} {o : Outcome} {made : Bool}

theorem NoLinksBelow.makesDirectories {S : RealPath → Prop} (hlinks : NoLinksBelow real fs)
    (h : MakesDirectories S fs fs') : NoLinksBelow real fs' := by
  intro q target hq hget
  by_cases hS : S q
  · obtain ⟨mode, hmode⟩ := isDirectoryAt_iff.1 (h.made q hS).2
    cases hget.symm.trans hmode
  · rw [h.outside.get? q hS] at hget
    exact hlinks q target hq hget

theorem NoLinksBelow.grows (hlinks : NoLinksBelow real fs) (hgrows : Grows fs fs') : NoLinksBelow real fs' := by
  obtain ⟨S, hmakes⟩ := hgrows
  exact hlinks.makesDirectories hmakes

/-- What the directory pass makes of a slot, seen from what stood at the home of its entry before. -/
inductive Slot.Visited (real : RealPath) (fs : FileSystem) (slot : Slot) : Slot → Prop
  | untouched : Slot.Visited real fs slot slot
  | made (hdirectory : slot.entry.isFile = false) (hfree : fs.get? (slot.entry.home real) = none) :
      Slot.Visited real fs slot { slot with outcome := some .created, made := true }
  | existing {mode : UInt32} (hdirectory : slot.entry.isFile = false)
      (hthere : fs.get? (slot.entry.home real) = some (.directory mode)) :
      Slot.Visited real fs slot { slot with outcome := some .skippedUnchanged }
  | failed (hopen : slot.outcome = none) (kind : ErrorKind) (message : String) :
      Slot.Visited real fs slot { slot with outcome := some (.failed kind message) }

theorem Slot.Visited.entry (h : slot.Visited real fs slot') : slot'.entry = slot.entry := by
  cases h <;> rfl

theorem Slot.Visited.destination (h : slot.Visited real fs slot') : slot'.destination = slot.destination := by
  cases h <;> rfl

/-- The homes of the directories that were made. -/
def MadeAt (real : RealPath) (slots : List Slot) (q : RealPath) : Prop :=
  ∃ slot ∈ slots, slot.made = true ∧ q = slot.entry.home real

/-- Bringing an entry to its destination, from the entry's point of view. -/
theorem run_createDirectory_entry (hroot : plan.Rooted names real fs) (hlinks : NoLinksBelow real fs)
    (hp : sanitize plan.root e.path = .ok p) (entry : String) :
    ∃ result fs', (createDirectory real.toPath p entry).run answer fs = (result, fs') ∧
      DirectorySettled e.name (fs.Names p (e.folder real) e.name) (fs.get? (e.home real)) result
        (fs'.get? (e.home real)) ∧
      AgreeOutside (· = e.home real) fs fs' := by
  have hreal := hroot.properReal
  rw [hroot.root] at hp
  obtain ⟨front, hfront⟩ := e.exists_names
  obtain ⟨hproper, hspelled⟩ := exists_destination hroot.properNames hp hfront
  have hhome := e.home_eq real
  by_cases hd : ∃ d, fs.LeadsTo (RealPath.toPath (names ++ front)) d
  · obtain ⟨d, hd⟩ := hd
    have hnames := names_destination hroot.properNames hp hfront hd
    obtain rfl := hlinks.eq_folder hroot.leads hroot.properNames hp hnames
    have hlink : ∀ target, fs.get? (e.folder real ++ [e.name]) ≠ some (.symlink target) := by
      rw [← hhome]
      exact fun target => hlinks _ target (e.contains_home real)
    rw [hhome]
    exact run_createDirectory hnames hreal (e.prefix_folder real) hlink hnames entry
  · obtain ⟨err, hrun⟩ := run_createDirectory_astray hreal hproper hd entry
    rw [← hspelled] at hrun
    refine ⟨.error err, fs, hrun, .astray ?_, .refl _ fs⟩
    intro hnames
    rw [hspelled] at hnames
    exact hd ⟨_, hnames.leadsTo hproper⟩

theorem exists_of_blocked? (h : RunPlan.blocked? failures e = some o) :
    ∃ kind message, o = .failed kind message := by
  rw [RunPlan.blocked?] at h
  split at h
  · cases h
  · obtain ⟨kind, -, rfl⟩ := Option.map_eq_some_iff.1 h
    exact ⟨kind, _, rfl⟩

/-- A slot that was not made before, with a failure. -/
theorem Slot.visited_failed (slot : Slot) (real : RealPath) (fs : FileSystem) (hopen : slot.outcome = none) (hunmade : slot.made = false) (kind : ErrorKind)
    (message : String) :
    slot.Visited real fs { slot with outcome := some (.failed kind message), made := false } := by
  rw [← hunmade]
  exact .failed hopen kind message

/-- What dealing with one directory entry does. -/
theorem run_placeDirectory (hroot : plan.Rooted names real s.fs)
    (hlinks : NoLinksBelow real s.fs) (hp : sanitize plan.root slot.entry.path = .ok p)
    (hdirectory : slot.entry.isFile = false) (hopen : slot.outcome = none) (hunmade : slot.made = false)
    (h : (plan.placeDirectory failures p slot.entry).run (RunState.handler options) s =
      (.ok (o, made), s')) :
    slot.Visited real s.fs { slot with outcome := some o, made := made } ∧
      MakesDirectories (fun q => made = true ∧ q = slot.entry.home real) s.fs s'.fs ∧
      (made = true → s'.fs.Names p (slot.entry.folder real) slot.name ∧ IsAcceptable slot.name) := by
  have hnothing : MakesDirectories (fun q => false = true ∧ q = slot.entry.home real) s.fs s.fs :=
    (MakesDirectories.refl s.fs).congr (by simp)
  rw [RunPlan.placeDirectory] at h
  cases hblocked : RunPlan.blocked? failures slot.entry with
  | some outcome =>
    rw [hblocked] at h
    cases h
    obtain ⟨kind, message, rfl⟩ := exists_of_blocked? hblocked
    exact ⟨slot.visited_failed real s.fs hopen hunmade kind message, hnothing, by rintro ⟨⟩⟩
  | none =>
    rw [hblocked] at h
    change (plan.tryDirectory p slot.entry).run _ s = _ at h
    rw [RunPlan.tryDirectory] at h
    replace h := (Program.run_bind _ _ _ _).symm.trans h
    obtain ⟨result, fs', hrun, hsettled, hother⟩ := run_createDirectory_entry hroot hlinks hp slot.entry.path
    rw [← hroot.realRoot] at hrun
    obtain ⟨hresult, hfs, -⟩ := run_onFiles options
      (createDirectory plan.realRoot p slot.entry.path) s
    rw [hrun] at hresult hfs
    rw [hresult] at h
    change _ = fs' at hfs
    have hmade := hsettled.makesDirectories hother
    cases result with
    | error err =>
      change Program.run _ (if err.isPathError && plan.options.strict then _ else _) _ = _ at h
      split at h
      · cases h
      · have hsame : MakesDirectories (fun q => false = true ∧ q = slot.entry.home real) s.fs fs' :=
          hmade.congr (by simp)
        rw [← hfs] at hsame
        have hvisited := slot.visited_failed real s.fs hopen hunmade err.kind err.message
        cases hstop : plan.options.stopOnFirstError with
        | false =>
          rw [hstop] at h
          cases h
          exact ⟨hvisited, hsame, by rintro ⟨⟩⟩
        | true =>
          rw [hstop] at h
          cases h
          exact ⟨hvisited, hsame, by rintro ⟨⟩⟩
    | ok state =>
      cases state with
      | created =>
        cases h
        rw [hfs]
        obtain ⟨hnames, hn⟩ := hsettled.there_of_created
        exact ⟨.made hdirectory hsettled.of_created.1, hmade.congr (by simp),
          fun _ => ⟨hmade.keeps.names hnames, hn⟩⟩
      | existing =>
        cases h
        obtain ⟨mode, hthere⟩ := hsettled.of_existing
        rw [hfs, ← hunmade]
        exact ⟨.existing hdirectory hthere, hmade.congr (by simp [hunmade]), by simp [hunmade]⟩

/-! ## The pass -/

theorem Slot.Visited.before {S : RealPath → Prop} (h : slot.Visited real fs₁ slot')
    (hmade : MakesDirectories S fs fs₁) (hother : ¬S (slot.entry.home real)) :
    slot.Visited real fs slot' := by
  have hsame := hmade.outside.get? _ hother
  cases h with
  | untouched => exact .untouched
  | made hdirectory hfree => exact .made hdirectory (hsame ▸ hfree)
  | existing hdirectory hthere => exact .existing hdirectory (hsame ▸ hthere)
  | failed hopen kind message => exact .failed hopen kind message

/-- What the pass leaves of the slots, and of the file system. -/
structure PassResult (real : RealPath) (fs : FileSystem) (slots slots' : List Slot) (fs' : FileSystem) :
    Prop where
  visited : List.Forall₂ (Slot.Visited real fs) slots slots'
  makes : MakesDirectories (MadeAt real slots') fs fs'
  within : ∀ slot ∈ slots', slot.made = true → slot.Within fs' real ∧ IsAcceptable slot.name

theorem PassResult.refl (hunmade : ∀ slot ∈ slots, slot.made = false) (real : RealPath) (fs : FileSystem) :
    PassResult real fs slots slots fs := by
  have hnone : ∀ slot ∈ slots, ¬slot.made = true := by
    intro slot hslot
    rw [hunmade slot hslot]
    exact Bool.false_ne_true
  refine ⟨List.forall₂_same.2 fun _ _ => .untouched, (MakesDirectories.refl fs).congr fun q => ?_, ?_⟩
  · refine ⟨False.elim, ?_⟩
    rintro ⟨slot, hslot, hmade, -⟩
    exact hnone slot hslot hmade
  · exact fun slot hslot hmade => absurd hmade (hnone slot hslot)

/-- One slot, and then the rest. -/
theorem PassResult.cons (hhead : slot.Visited real fs slot')
    (hmade : MakesDirectories (fun q => slot'.made = true ∧ q = slot.entry.home real) fs fs₁)
    (hwithin : slot'.made = true → slot'.Within fs₁ real ∧ IsAcceptable slot'.name)
    (hrest : PassResult real fs₁ rest rest' fs') (hdiffer : HomesDiffer real (slot :: rest)) :
    PassResult real fs (slot :: rest) (slot' :: rest') fs' := by
  obtain ⟨hothers, -⟩ := homesDiffer_cons.1 hdiffer
  refine ⟨.cons hhead ?_, (hmade.trans hrest.makes).congr fun q => ?_, List.forall_mem_cons.2 ⟨?_, hrest.within⟩⟩
  · refine (List.forall₂_iff_get.1 hrest.visited).elim fun hlength hvisited => ?_
    refine List.forall₂_iff_get.2 ⟨hlength, fun i hi hi' => (hvisited i hi hi').before hmade ?_⟩
    rintro ⟨-, heq⟩
    exact hothers _ (List.get_mem rest ⟨i, hi⟩) heq
  · simp [MadeAt, hhead.entry]
  · intro h
    obtain ⟨hslot, hn⟩ := hwithin h
    exact ⟨hslot.keeps hrest.makes.keeps, hn⟩

/-- The pass goes on with the rest. -/
theorem run_keep (h : (do return (← plan.directoryPass failures rest).map fun (failures, slots) =>
      (failures, slot :: slots) : Program Session (Except ExtractError (RunPlan.Failures × List Slot))).run
      (RunState.handler options) s = (.ok (failures', slots'), s')) :
    ∃ rest', slots' = slot :: rest' ∧
      (plan.directoryPass failures rest).run (RunState.handler options) s = (.ok (failures', rest'), s') := by
  replace h := (Program.run_bind _ _ _ _).symm.trans h
  cases hrun : (plan.directoryPass failures rest).run (RunState.handler options) s with
  | mk result t =>
    rw [hrun] at h
    cases result with
    | error err => cases h
    | ok passed =>
      obtain ⟨failures'', rest'⟩ := passed
      cases h
      exact ⟨rest', rfl, rfl⟩

/-- **What the directory pass does**: every slot is visited, and directories are made for those that say so. -/
theorem run_directoryPass (hquiet : options.IsQuiet) (hroot : plan.Rooted names real s.fs)
    (hlinks : NoLinksBelow real s.fs)
    (hdestinations : ∀ slot ∈ slots, ∀ p, slot.destination = some p → sanitize plan.root slot.entry.path = .ok p)
    (hunmade : ∀ slot ∈ slots, slot.made = false) (hdiffer : HomesDiffer real slots)
    (h : (plan.directoryPass failures slots).run (RunState.handler options) s =
      (.ok (failures', slots'), s')) : PassResult real s.fs slots slots' s'.fs := by
  induction slots generalizing failures s slots' with
  | nil =>
    cases h
    exact .refl hunmade real _
  | cons slot rest ih =>
    obtain ⟨hdestination, hdestinations⟩ := List.forall_mem_cons.1 hdestinations
    obtain ⟨hslotUnmade, hrestUnmade⟩ := List.forall_mem_cons.1 hunmade
    have hdiffer' := (homesDiffer_cons.1 hdiffer).2
    -- slots that are passed over
    have hover : ∀ (failures : RunPlan.Failures) (t : RunState), t.fs = s.fs →
        (do return (← plan.directoryPass failures rest).map fun (failures, slots) =>
          (failures, slot :: slots) : Program Session (Except ExtractError (RunPlan.Failures × List Slot))).run
          (RunState.handler options) t = (.ok (failures', slots'), s') →
        PassResult real s.fs (slot :: rest) slots' s'.fs := by
      intro failures t ht hrun
      obtain ⟨rest', rfl, hrest⟩ := run_keep hrun
      have hresult := ih (ht ▸ hroot) (ht ▸ hlinks) hdestinations hrestUnmade hdiffer' hrest
      rw [ht] at hresult
      exact .cons .untouched ((MakesDirectories.refl s.fs).congr (by simp [hslotUnmade]))
        (by simp [hslotUnmade]) hresult hdiffer
    rw [RunPlan.directoryPass] at h
    change Program.run _ (if slot.entry.isFile then _ else _) s = _ at h
    cases hfile : slot.entry.isFile with
    | true =>
      rw [hfile] at h
      exact hover _ s rfl h
    | false =>
      rw [hfile, if_neg Bool.false_ne_true] at h
      cases hopen : slot.outcome with
      | some o =>
        rw [hopen] at h
        exact hover _ s rfl h
      | none =>
        rw [hopen] at h
        replace h := (Program.run_bind _ _ _ _).symm.trans h
        have hfs := isTacit_isHalted.run_fs hquiet s
        cases hhalted : Session.isHalted.run (RunState.handler options) s with
        | mk halted t =>
          rw [hhalted] at h hfs
          obtain hfs : t.fs = s.fs := hfs
          cases halted with
          | true =>
            cases h
            rw [hfs]
            exact .refl hunmade real _
          | false =>
            cases hp : slot.destination with
            | none =>
              rw [hp] at h
              exact hover _ t hfs h
            | some p =>
              rw [hp] at h
              replace h := (Program.run_bind _ _ _ _).symm.trans h
              cases hplace : (plan.placeDirectory failures p slot.entry).run (RunState.handler options) t with
              | mk placed u =>
                rw [hplace] at h
                cases placed with
                | error err => cases h
                | ok result =>
                  obtain ⟨o, made⟩ := result
                  obtain ⟨hhead, hmade, hplaced⟩ := run_placeDirectory (hfs ▸ hroot) (hfs ▸ hlinks)
                    (hdestination p hp) hfile hopen hslotUnmade hplace
                  replace h := (Program.run_bind _ _ _ _).symm.trans h
                  have hdone := (isTacit_entryDone plan slot.entry.path 0).run_fs hquiet u
                  obtain ⟨rest', rfl, hrest⟩ := run_keep h
                  rw [hfs] at hhead hmade
                  have hresult := ih (hdone ▸ hroot.keeps hmade.keeps)
                    (hdone ▸ hlinks.makesDirectories hmade) hdestinations hrestUnmade hdiffer' hrest
                  rw [hdone] at hresult
                  rw [hp] at hhead
                  exact .cons hhead hmade (fun h => ⟨⟨p, rfl, (hplaced h).1⟩, (hplaced h).2⟩) hresult hdiffer

theorem exists_of_forall₂ {α β : Type} {R : α → β → Prop} {as : List α} {bs : List β} (h : List.Forall₂ R as bs)
    {b : β} (hb : b ∈ bs) : ∃ a ∈ as, R a b := by
  induction h with
  | nil => exact absurd hb List.not_mem_nil
  | @cons a _ _ _ hab _ ih =>
    rcases List.mem_cons.1 hb with rfl | hb
    · exact ⟨a, List.mem_cons_self, hab⟩
    · obtain ⟨a', ha', hab'⟩ := ih hb
      exact ⟨a', List.mem_cons_of_mem _ ha', hab'⟩

/-- What blocking the files below failed directories does to a slot. -/
def Slot.MayBlock (slot slot' : Slot) : Prop :=
  slot' = slot ∨ slot.outcome = none ∧ ∃ kind message, slot' = { slot with outcome := some (.failed kind message) }

theorem run_blockFiles (hquiet : options.IsQuiet)
    (h : (plan.blockFiles failures slots).run (RunState.handler options) s = (slots', s')) :
    s'.fs = s.fs ∧ List.Forall₂ Slot.MayBlock slots slots' := by
  induction slots generalizing s slots' with
  | nil =>
    cases h
    exact ⟨rfl, .nil⟩
  | cons slot rest ih =>
    rw [RunPlan.blockFiles] at h
    cases hblocked : (if slot.entry.isFile && slot.outcome.isNone then
      RunPlan.blocked? failures slot.entry else none) with
    | none =>
      rw [hblocked] at h
      replace h := (Program.run_bind _ _ _ _).symm.trans h
      cases hrun : (plan.blockFiles failures rest).run (RunState.handler options) s with
      | mk rest' t =>
        rw [hrun] at h
        cases h
        obtain ⟨hfs, hrest⟩ := ih hrun
        exact ⟨hfs, .cons (.inl rfl) hrest⟩
    | some o =>
      rw [hblocked] at h
      split at hblocked
      · next hopen =>
        obtain ⟨kind, message, rfl⟩ := exists_of_blocked? hblocked
        rw [Bool.and_eq_true, Option.isNone_iff_eq_none] at hopen
        replace h := (Program.run_bind _ _ _ _).symm.trans h
        have hdone := (isTacit_entryDone plan slot.entry.path 0).run_fs hquiet s
        generalize (plan.entryDone slot.entry.path 0).run (RunState.handler options) s = t at h hdone
        replace h := (Program.run_bind _ _ _ _).symm.trans h
        cases hrun : (plan.blockFiles failures rest).run (RunState.handler options) t.2 with
        | mk rest' u =>
          rw [hrun] at h
          cases h
          obtain ⟨hfs, hrest⟩ := ih hrun
          exact ⟨hfs.trans hdone, .cons (.inr ⟨hopen.2, kind, message, rfl⟩) hrest⟩
      · cases hblocked

theorem Slot.Visited.mayBlock {slot'' : Slot} (h : slot.Visited real fs slot') (hblock : slot'.MayBlock slot'') :
    slot.Visited real fs slot'' := by
  rcases hblock with rfl | ⟨hopen, kind, message, rfl⟩
  · exact h
  · cases h with
    | untouched => exact .failed hopen kind message
    | _ => cases hopen

theorem visited_mayBlock {slots'' : List Slot} (h : List.Forall₂ (Slot.Visited real fs) slots slots')
    (hblock : List.Forall₂ Slot.MayBlock slots' slots'') :
    List.Forall₂ (Slot.Visited real fs) slots slots'' := by
  induction h generalizing slots'' with
  | nil =>
    cases hblock
    exact .nil
  | cons hhead _ ih =>
    obtain _ | ⟨hslot, hrest⟩ := hblock
    exact .cons (hhead.mayBlock hslot) (ih hrest)

/-- Blocking does not change for which entries directories were made. -/
theorem madeAt_mayBlock (h : List.Forall₂ Slot.MayBlock slots slots') (q : RealPath) :
    MadeAt real slots q ↔ MadeAt real slots' q := by
  induction h with
  | nil => exact Iff.rfl
  | cons hslot _ ih =>
    unfold MadeAt at ih ⊢
    rw [List.exists_mem_cons_iff, List.exists_mem_cons_iff, ih]
    rcases hslot with rfl | ⟨-, kind, message, rfl⟩ <;> rfl

/-- **What the passes over directories do.** -/
theorem run_directories (hquiet : options.IsQuiet) (hroot : plan.Rooted names real s.fs)
    (hlinks : NoLinksBelow real s.fs)
    (hdestinations : ∀ slot ∈ slots, ∀ p, slot.destination = some p → sanitize plan.root slot.entry.path = .ok p)
    (hunmade : ∀ slot ∈ slots, slot.made = false) (hdiffer : HomesDiffer real slots)
    (h : (plan.directories slots).run (RunState.handler options) s = (.ok slots', s')) :
    PassResult real s.fs slots slots' s'.fs := by
  rw [RunPlan.directories] at h
  replace h := (Program.run_bind _ _ _ _).symm.trans h
  cases hpass : (plan.directoryPass [] slots).run (RunState.handler options) s with
  | mk result t =>
    rw [hpass] at h
    cases result with
    | error err => cases h
    | ok passed =>
      obtain ⟨failures, slots₁⟩ := passed
      replace h := (Program.run_bind _ _ _ _).symm.trans h
      cases hblock : (plan.blockFiles failures slots₁).run (RunState.handler options) t with
      | mk slots₂ u =>
        rw [hblock] at h
        cases h
        obtain ⟨hvisited, hmakes, hwithin⟩ := run_directoryPass hquiet hroot hlinks hdestinations hunmade hdiffer hpass
        obtain ⟨hfs, hblocked⟩ := run_blockFiles hquiet hblock
        rw [hfs]
        refine ⟨visited_mayBlock hvisited hblocked, hmakes.congr (madeAt_mayBlock hblocked), ?_⟩
        intro slot hslot hmade
        obtain ⟨slot₁, hslot₁, hblock⟩ := exists_of_forall₂ hblocked hslot
        rcases hblock with rfl | ⟨-, kind, message, rfl⟩
        · exact hwithin slot hslot₁ hmade
        · exact hwithin slot₁ hslot₁ hmade

end TreeImage
