import TreeImage.Proofs.Extract.Blocking
import TreeImage.Proofs.Extract.Failing

set_option autoImplicit false

/-! # What an abort tells

A strict run that meets an escape in its file pass is stopped, and other workers may be anywhere in their files then.
They finish them, and the abort lists every file whose result says that it was written. Such a file was staged and
then moved over its destination, and nothing else in a run moves anything, so the list is that of the destinations to
which files were moved (`extract_aborts`). -/

namespace TreeImage

variable {options : ExtractOptions} {plan : RunPlan} {image : Image} {schedule : List Nat} {s s' t : RunState}
  {root p q realRoot : Path} {e : Entry} {entries : List Entry} {slot slot' : Slot} {slots pending : List Slot}
  {results : List (Option Outcome)} {o : Outcome} {content : Bytes} {expected : Digest} {write : WriteOptions}
  {said said' asked : List (Exchange Files)} {cause : ExtractError} {committed : List String} {α : Type}

/-! ## Files that are put in place -/

/-- The path of a temporary file that was made. -/
def staged? : Exchange Files → Option Path
  | ⟨.createTemporary _ _, .ok (p, _)⟩ => some p
  | _ => none

/-- From where to where a file was moved. -/
def moved? : Exchange Files → Option (Path × Path)
  | ⟨.rename p q, .ok ()⟩ => some (p, q)
  | _ => none

/-- A temporary file that was made was moved to this path. -/
def installs (said : List (Exchange Files)) (q : Path) : Bool :=
  (said.filterMap moved?).any fun (p, q') => q' == q && (said.filterMap staged?).contains p

/-- The run moved a file that it had staged to this path. -/
def RunState.installed (s : RunState) (q : Path) : Bool := installs s.exchanges q

/-- The call does not move anything. -/
def FileCall.Stays : FileCall → Prop
  | .rename _ _ => False
  | _ => True

theorem moved?_eq_none {x : Exchange Files} (h : FileCall.Stays x.1) : moved? x = none := by
  obtain ⟨c, r⟩ := x
  cases c with
  | rename p q => exact h.elim
  | _ => rfl

theorem filterMap_moved?_eq_nil (h : ∀ x ∈ said, FileCall.Stays x.1) : said.filterMap moved? = [] :=
  List.filterMap_eq_nil_iff.2 fun x hx => moved?_eq_none (h x hx)

/-! ## One file -/

/-- What was said to bring a file to a destination: if it is in place then, it was staged and moved there, and otherwise
    nothing was moved. -/
def Places (said : List (Exchange Files)) (destination : Path) (inPlace : Bool) : Prop :=
  if inPlace then ∃ p ∈ said.filterMap staged?, said.filterMap moved? = [(p, destination)]
  else said.filterMap moved? = []

theorem Places.of_stays (h : ∀ x ∈ said, FileCall.Stays x.1) (destination : Path) : Places said destination false :=
  filterMap_moved?_eq_nil h

/-- What does not move anything makes no difference. -/
theorem Places.append_left {inPlace : Bool} (h : Places said' q inPlace) (hsaid : ∀ x ∈ said, FileCall.Stays x.1) :
    Places (said ++ said') q inPlace := by
  rw [Places, List.filterMap_append, List.filterMap_append, filterMap_moved?_eq_nil hsaid, List.nil_append]
  cases inPlace with
  | false => exact h
  | true =>
    obtain ⟨p, hp, hmoved⟩ := h
    exact ⟨p, List.mem_append_right _ hp, hmoved⟩

/-- What only looks, makes directories and removes does not move anything. -/
abbrev Staying (prog : Program Files α) (told : α → Prop) : Prop := prog.Asks FileSystem.answer FileCall.Stays told

theorem discard_stays (staged : StagedFile) : Staying staged.discard fun _ => True :=
  (Program.asks_call (show FileCall.Stays (.remove staged.path) from trivial)).bind fun _ _ => trivial

theorem reopen_stays (staged : StagedFile) : Staying staged.reopen fun _ => True := by
  refine (Program.asks_call (show FileCall.Stays (.read staged.path) from trivial)).bind fun result _ => ?_
  cases result <;> trivial

theorem existingDigest_stays : Staying (existingDigest q) fun _ => True := by
  refine (Program.asks_call (show FileCall.Stays (.inspect false q) from trivial)).bind fun result _ => ?_
  rcases result with refusal | info
  · cases refusal <;> trivial
  · obtain ⟨kind, mode, size⟩ := info
    cases kind with
    | file =>
      refine (Program.asks_call (show FileCall.Stays (.read q) from trivial)).bind fun result _ => ?_
      cases result <;> trivial
    | _ => trivial

/-- A file that was made for staging is given its content and its mode. -/
theorem fill_stays {path : Path} {place : RealPath} : Staying (do
    Files.writeOpen place content
    match ← applyMode? path write.mode with
    | .error e =>
      StagedFile.discard ⟨path, place, q⟩
      return .error e
    | .ok () =>
      if write.sync then Files.flush place
      return .ok ⟨path, place, q⟩ : Program Files (Except FsError StagedFile))
    fun result => ∀ staged, result = .ok staged → staged = ⟨path, place, q⟩ := by
  refine (Program.asks_call (show FileCall.Stays (.writeOpen place content) from trivial)).bind fun _ _ => ?_
  refine (applyMode?_asks fun _ _ => trivial).bind fun result _ => ?_
  cases result with
  | error e =>
    refine (discard_stays _).bind fun _ _ => ?_
    rintro _ ⟨⟩
  | ok _ =>
    have hdone : ∀ staged, (Except.ok ⟨path, place, q⟩ : Except FsError StagedFile) = .ok staged →
        staged = ⟨path, place, q⟩ := fun _ h => (Except.ok.inj h).symm
    show Program.Asks _ _ _ (if write.sync then _ else _)
    split
    · exact (Program.asks_call (show FileCall.Stays (.flush place) from trivial)).bind fun _ _ => hdone
    · exact hdone

/-- A staged file was made for its destination, and nothing was moved yet. -/
theorem create_ends {result : Except FsError StagedFile}
    (h : (StagedFile.create q content write).Ends FileSystem.answer asked result) :
    (∀ x ∈ asked, FileCall.Stays x.1) ∧
      ∀ staged, result = .ok staged → staged.destination = q ∧ staged.path ∈ asked.filterMap staged? := by
  rw [StagedFile.create] at h
  split at h
  · obtain ⟨rfl, rfl⟩ := Program.ends_done_iff.1 h
    exact ⟨List.forall_mem_nil _, by rintro _ ⟨⟩⟩
  · next name _ =>
    obtain ⟨fs, rest, rfl, hrest⟩ := Program.ends_call_iff.1 h
    rcases hreply : (FileSystem.answer (.createTemporary (StagedFile.directoryOf q) (utf8 (lossy name))) fs).1 with
      fault | ⟨path, place⟩
    · rw [hreply] at hrest
      obtain ⟨rfl, rfl⟩ := Program.ends_done_iff.1 hrest
      exact ⟨List.forall_mem_singleton.2 trivial, by rintro _ ⟨⟩⟩
    · rw [hreply] at hrest
      obtain ⟨hasked, htold⟩ := fill_stays.ends hrest
      refine ⟨List.forall_mem_cons.2 ⟨trivial, hasked⟩, fun staged hstaged => ?_⟩
      rw [htold staged hstaged]
      exact ⟨rfl, List.mem_cons_self⟩

theorem commit_ends {staged : StagedFile} {result : Except FsError Unit}
    (h : staged.commit.Ends FileSystem.answer asked result) :
    asked.filterMap moved? = if result.isOk then [(staged.path, staged.destination)] else [] := by
  obtain ⟨fs, rest, rfl, hrest⟩ := Program.ends_call_iff.1 h
  rcases hreply : (FileSystem.answer (.rename staged.path staged.destination) fs).1 with refusal | ⟨⟩
  · rw [hreply] at hrest
    change (staged.discard.bind fun _ => .done (.error (.write staged.destination ⟨refusal, none⟩)) :
      Program Files (Except FsError Unit)).Ends _ _ _ at hrest
    obtain ⟨_, first, last, rfl, hdiscard, hdone⟩ := Program.ends_bind_iff.1 hrest
    obtain ⟨rfl, rfl⟩ := Program.ends_done_iff.1 hdone
    rw [List.append_nil]
    exact (List.filterMap_cons_none rfl).trans (filterMap_moved?_eq_nil ((discard_stays staged).ends hdiscard).1)
  · rw [hreply] at hrest
    obtain ⟨rfl, rfl⟩ := Program.ends_done_iff.1 hrest
    rfl

theorem writeVerified_ends {result : Except ExtractError Unit}
    (h : (writeVerified q content expected write).Ends FileSystem.answer asked result) : Places asked q result.isOk := by
  obtain ⟨created, first, rest, rfl, hcreate, hrest⟩ := Program.ends_bind_iff.1 h
  obtain ⟨hstays, hstaged⟩ := create_ends hcreate
  cases created with
  | error err =>
    obtain ⟨rfl, rfl⟩ := Program.ends_done_iff.1 hrest
    rw [List.append_nil]
    exact .of_stays hstays q
  | ok staged =>
    obtain ⟨rfl, hmade⟩ := hstaged staged rfl
    obtain ⟨written, second, rest, rfl, hreopen, hrest⟩ := Program.ends_bind_iff.1 hrest
    have hread := ((reopen_stays staged).ends hreopen).1
    -- whatever is removed then was not moved
    have hdiscarded : ∀ {rest : List (Exchange Files)} {err : ExtractError},
        (staged.discard.bind fun _ => .done (.error err) : Program Files (Except ExtractError Unit)).Ends
          FileSystem.answer rest result → Places rest staged.destination result.isOk := by
      intro rest err hrest
      obtain ⟨_, third, last, rfl, hdiscard, hdone⟩ := Program.ends_bind_iff.1 hrest
      obtain ⟨rfl, rfl⟩ := Program.ends_done_iff.1 hdone
      rw [List.append_nil]
      exact .of_stays ((discard_stays staged).ends hdiscard).1 _
    cases written with
    | error err => exact ((hdiscarded hrest).append_left hread).append_left hstays
    | ok written =>
      change (if Digest.of written ≠ expected then _ else _ : Program Files (Except ExtractError Unit)).Ends _ _ _ at hrest
      split at hrest
      · exact ((hdiscarded hrest).append_left hread).append_left hstays
      · obtain ⟨moved, third, last, rfl, hcommit, hdone⟩ := Program.ends_bind_iff.1 hrest
        have hmoved := commit_ends hcommit
        cases moved with
        | error err =>
          obtain ⟨rfl, rfl⟩ := Program.ends_done_iff.1 hdone
          rw [List.append_nil]
          have hnone : Places third staged.destination false := hmoved
          exact (hnone.append_left hread).append_left hstays
        | ok _ =>
          obtain ⟨rfl, rfl⟩ := Program.ends_done_iff.1 hdone
          refine ⟨staged.path, ?_, ?_⟩
          · rw [List.filterMap_append]
            exact List.mem_append_left _ hmade
          · rw [List.append_nil, List.filterMap_append, List.filterMap_append, filterMap_moved?_eq_nil hstays,
              filterMap_moved?_eq_nil hread, hmoved]
            rfl

/-- The result of writing a file that was put in place. -/
def wasWritten (result : Except ExtractError Outcome) : Bool := result.toOption.any (·.isWritten)

/-- **A file is in place just if it was moved there.** -/
theorem writeFile_ends {result : Except ExtractError Outcome}
    (h : (writeFile options realRoot q e content).Ends FileSystem.answer asked result) :
    Places asked q (wasWritten result) := by
  obtain ⟨confirmed, first, rest, rfl, hconfirm, hrest⟩ := Program.ends_bind_iff.1 h
  have hstays : ∀ x ∈ first, FileCall.Stays x.1 := ((confirmParent_asks fun _ _ => trivial).ends hconfirm).1
  have hwritten : ∀ {rest : List (Exchange Files)} {o : Outcome}, o.isWritten = true →
      ((writeVerified q content e.digest ⟨e.mode, options.sync⟩).bind fun result => .done (result.map fun _ => o)).Ends
        FileSystem.answer rest result → Places rest q (wasWritten result) := by
    intro rest o ho hrest
    obtain ⟨verified, second, last, rfl, hverified, hdone⟩ := Program.ends_bind_iff.1 hrest
    obtain ⟨rfl, rfl⟩ := Program.ends_done_iff.1 hdone
    rw [List.append_nil]
    have hplaces := writeVerified_ends hverified
    cases verified with
    | error err => exact hplaces
    | ok _ =>
      have hyes : wasWritten (Except.map (fun _ => o) (Except.ok () : Except ExtractError Unit)) = true := ho
      rw [hyes]
      exact hplaces
  cases confirmed with
  | error err =>
    obtain ⟨rfl, rfl⟩ := Program.ends_done_iff.1 hrest
    rw [List.append_nil]
    exact .of_stays hstays q
  | ok _ =>
    obtain ⟨existing, second, rest, rfl, hexisting, hrest⟩ := Program.ends_bind_iff.1 hrest
    refine Places.append_left (Places.append_left ?_ (existingDigest_stays.ends hexisting).1) hstays
    rcases existing with err | _ | digest
    · obtain ⟨rfl, rfl⟩ := Program.ends_done_iff.1 hrest
      exact .of_stays (List.forall_mem_nil _) q
    · exact hwritten rfl hrest
    · cases hleave : options.overwrite.leave? (digest == e.digest) with
      | none =>
        simp only [hleave] at hrest
        exact hwritten rfl hrest
      | some o =>
        simp only [hleave] at hrest
        obtain ⟨rfl, rfl⟩ := Program.ends_done_iff.1 hrest
        have hleft : wasWritten (.ok o) = false := by
          cases hpolicy : options.overwrite <;> cases hsame : digest == e.digest <;> rw [hpolicy, hsame] at hleave <;>
            cases hleave <;> rfl
        rw [hleft]
        exact .of_stays (List.forall_mem_nil _) q

/-- What is said for a file brings it to its destination, if it is reported as written. -/
theorem placeFile_places {log : List (Exchange Session)}
    (h : (plan.placeFile image p e).Ends (RunState.handler options) log o) :
    Places (fileExchanges log) p o.isWritten := by
  obtain ⟨asked, result, hwrite, hasked, _, -, ⟨rfl, -, -⟩ | ⟨err, rfl, rfl, -⟩⟩ := placeFile_ends h
  · rw [hasked]
    exact writeFile_ends hwrite
  · rw [hasked]
    exact writeFile_ends hwrite

/-! ## The pool -/

/-- The file is one of those that are pending, and its result says that it was written. -/
def WrittenAt (pending : List Slot) (results : List (Option Outcome)) (slot : Slot) : Prop :=
  ∃ (i : Nat) (o : Outcome), pending[i]? = some slot ∧ results[i]? = some (some o) ∧ o.isWritten = true

section Pool

variable {looks : List (Look Session)} {jobs : List (JobDone Session Outcome)} {log : List (Exchange Session)}
  (hrun : FilesRun options plan image pending s looks jobs log results s')

include hrun

/-- In the pool, only jobs have to do with the file system. -/
theorem fileExchanges_filesRun : (fileExchanges log).Perm (jobs.flatMap fun j => fileExchanges j.log) := by
  have hlooks : looks.flatMap (fun l => fileExchanges l.log) = [] :=
    List.flatMap_eq_nil_iff.2 fun l hl => fileExchanges_eq_nil (isHalted_ends (hrun.looked l hl)).2.1
  have hsaid := hrun.said.filterMap fileExchange?
  rw [List.filterMap_append, List.filterMap_flatMap, List.filterMap_flatMap] at hsaid
  exact hsaid.trans (.of_eq (congrArg (· ++ _) hlooks))

variable (hpending : ∀ slot ∈ pending, slot.destination ≠ none)

include hpending

/-- The jobs whose results say so put their files in place. -/
theorem exists_places_of_job {j : JobDone Session Outcome} (hj : j ∈ jobs) :
    ∃ slot p, pending[j.index]? = some slot ∧ slot.destination = some p ∧
      Places (fileExchanges j.log) p j.result.isWritten := by
  obtain ⟨slot, p, hslot, hp, hends⟩ := exists_placeFile_of_job hpending hrun hj
  exact ⟨slot, p, hslot, hp, placeFile_places hends⟩

/-- What was moved in the pool was moved to the destination of a file that was written. -/
theorem exists_written_of_moved (h : (p, q) ∈ (fileExchanges log).filterMap moved?) :
    ∃ slot, WrittenAt pending results slot ∧ slot.destination = some q := by
  obtain ⟨x, hx, hmoved⟩ := List.mem_filterMap.1 h
  obtain ⟨j, hj, hx⟩ := List.mem_flatMap.1 ((fileExchanges_filesRun hrun).mem_iff.1 hx)
  obtain ⟨slot, destination, hslot, hdestination, hplaces⟩ := exists_places_of_job hrun hpending hj
  have hmem : (p, q) ∈ (fileExchanges j.log).filterMap moved? := List.mem_filterMap.2 ⟨x, hx, hmoved⟩
  cases hwritten : j.result.isWritten with
  | false =>
    rw [hwritten] at hplaces
    have hnone : (fileExchanges j.log).filterMap moved? = [] := hplaces
    rw [hnone] at hmem
    cases hmem
  | true =>
    rw [hwritten] at hplaces
    obtain ⟨staged, -, hall⟩ := hplaces
    rw [hall] at hmem
    obtain ⟨-, rfl⟩ := Prod.mk.inj (List.mem_singleton.1 hmem)
    exact ⟨slot, ⟨j.index, j.result, hslot, hrun.getElem?_results hj, hwritten⟩, hdestination⟩

/-- A file that was written was staged, and moved to its destination. -/
theorem exists_moved_of_written (h : WrittenAt pending results slot) (hq : slot.destination = some q) :
    ∃ p ∈ (fileExchanges log).filterMap staged?, (p, q) ∈ (fileExchanges log).filterMap moved? := by
  obtain ⟨i, o, hslot, hresult, hwritten⟩ := h
  obtain ⟨j, hj, rfl, rfl⟩ := hrun.exists_job hresult
  obtain ⟨slot', destination, hslot', hdestination, hplaces⟩ := exists_places_of_job hrun hpending hj
  cases hslot.symm.trans hslot'
  cases hq.symm.trans hdestination
  rw [hwritten] at hplaces
  obtain ⟨staged, hstaged, hall⟩ := hplaces
  have hsaid : ∀ {α : Type} (f : Exchange Files → Option α) (a : α), a ∈ (fileExchanges j.log).filterMap f →
      a ∈ (fileExchanges log).filterMap f := by
    intro α f a ha
    obtain ⟨x, hx, hfx⟩ := List.mem_filterMap.1 ha
    exact List.mem_filterMap.2
      ⟨x, (fileExchanges_filesRun hrun).mem_iff.2 (List.mem_flatMap.2 ⟨j, hj, hx⟩), hfx⟩
  exact ⟨staged, hsaid _ _ hstaged, hsaid _ _ (hall ▸ List.mem_singleton_self _)⟩

end Pool

/-! ## The passes -/

theorem installs_iff : installs said q = true ↔ ∃ p ∈ said.filterMap staged?, (p, q) ∈ said.filterMap moved? := by
  rw [installs, List.any_eq_true]
  constructor
  · rintro ⟨⟨p, q'⟩, hmoved, hstaged⟩
    rw [Bool.and_eq_true, beq_iff_eq, List.contains_iff_mem] at hstaged
    obtain ⟨rfl, hstaged⟩ := hstaged
    exact ⟨p, hstaged, hmoved⟩
  · rintro ⟨p, hstaged, hmoved⟩
    exact ⟨(p, q), hmoved, by rw [Bool.and_eq_true, beq_iff_eq, List.contains_iff_mem]; exact ⟨rfl, hstaged⟩⟩

theorem moved_eq_nil_of_calls {log : List (Exchange Session)} (h : ∀ c ∈ fileCalls log, c.Stays) :
    (fileExchanges log).filterMap moved? = [] :=
  filterMap_moved?_eq_nil fun x hx => h x.1 (map_fileExchanges log ▸ List.mem_map_of_mem hx)

/-- Bringing a directory to its destination moves nothing. -/
theorem DirectoryCall.stays {failures : RunPlan.Failures} {c : FileCall} (h : DirectoryCall plan failures slots c) :
    c.Stays := by
  obtain ⟨slot, -, -, -, -, p, asked, result, -, hcreate, x, hx, rfl⟩ := h
  exact ((createDirectory_asks (fun _ _ => trivial) trivial (fun _ => trivial) trivial).ends hcreate).1 x hx

section Passage

variable (c : Passage options plan schedule image slots t) (hplan : plan.options = options)
  (hopened : List.Forall₂ (fun e slot => Slot.Opened root e slot) entries slots) (horder : Entry.InOrder entries)
  (hstart : t.exchanges.filterMap moved? = [])

include hplan hopened horder hstart

/-- **The destinations to which the passes moved files are those of the files that were written.** -/
theorem Passage.installed_iff : c.afterFiles.installed q = true ↔
    ∃ slot, WrittenAt (c.waiting.filter (·.isPending)) c.results slot ∧ slot.destination = some q := by
  obtain ⟨first, hfirst, hdirectories⟩ := c.directories.exists_calls (Entry.InOrder.precedes (map_entry_of_opened hopened ▸ horder))
  obtain ⟨second, hsecond, -, hnone⟩ := c.blocking
  obtain ⟨looks, jobs, log, hrun⟩ := c.filesRun hplan
  have hpending : ∀ slot ∈ c.waiting.filter (·.isPending), slot.destination ≠ none :=
    fun _ hslot => destination_of_pending hslot
  have hbefore : c.atFiles.exchanges.filterMap moved? = [] := by
    rw [hsecond.exchanges, fileExchanges_eq_nil hnone, List.append_nil, hfirst.exchanges, List.filterMap_append, hstart,
      moved_eq_nil_of_calls fun c hc => (hdirectories c hc).stays]
    rfl
  rw [RunState.installed, installs_iff, hrun.leads.exchanges, List.filterMap_append, List.filterMap_append, hbefore,
    List.nil_append]
  constructor
  · rintro ⟨p, -, hmoved⟩
    exact exists_written_of_moved hrun hpending hmoved
  · rintro ⟨slot, hwritten, hq⟩
    obtain ⟨p, hstaged, hmoved⟩ := exists_moved_of_written hrun hpending hwritten hq
    exact ⟨p, List.mem_append_right _ hstaged, hmoved⟩

end Passage

/-! ## The list -/

theorem mem_committedPaths {path : String} : path ∈ RunPlan.committedPaths pending results ↔
    ∃ slot, WrittenAt pending results slot ∧ slot.entry.path = path := by
  rw [RunPlan.committedPaths, List.mem_map]
  constructor
  · rintro ⟨⟨slot, result⟩, hmem, rfl⟩
    obtain ⟨hzip, hwritten⟩ := List.mem_filter.1 hmem
    obtain ⟨i, hi⟩ := List.mem_iff_getElem?.1 hzip
    obtain ⟨hslot, hresult⟩ := List.getElem?_zip_eq_some.1 hi
    obtain ⟨o, rfl, ho⟩ := (Option.any_eq_true _ _).1 hwritten
    exact ⟨slot, ⟨i, o, hslot, hresult, ho⟩, rfl⟩
  · rintro ⟨slot, ⟨i, o, hslot, hresult, ho⟩, rfl⟩
    exact ⟨(slot, some o), List.mem_filter.2 ⟨List.mem_iff_getElem?.2 ⟨i, List.getElem?_zip_eq_some.2 ⟨hslot, hresult⟩⟩, ho⟩, rfl⟩

theorem committedPaths_sublist (h : results.length = pending.length) :
    (RunPlan.committedPaths pending results).Sublist (pending.map (·.entry.path)) := by
  have hfirst : (pending.zip results).map (·.1.entry.path) = pending.map (·.entry.path) := by
    calc (pending.zip results).map (·.1.entry.path)
        = ((pending.zip results).map Prod.fst).map (·.entry.path) := by
          rw [List.map_map]
          rfl
      _ = pending.map (·.entry.path) := by rw [List.map_fst_zip h.ge]
  rw [← hfirst]
  exact List.filter_sublist.map _

/-- Part of a list in its order is what is left of the list when the rest is taken out. -/
theorem eq_filter_of_sublist {α : Type} [DecidableEq α] {part all : List α} (hall : all.Nodup) (h : part.Sublist all) :
    part = all.filter (part.contains ·) := by
  have hself : part.filter (part.contains ·) = part := List.filter_eq_self.2 fun a ha => List.contains_iff_mem.2 ha
  have hin : (part.filter (part.contains ·)).Sublist (all.filter (part.contains ·)) := h.filter _
  rw [hself] at hin
  refine hin.eq_of_length_le (List.Nodup.subperm (hall.filter _) fun a ha => ?_).length_le
  exact List.contains_iff_mem.1 (List.mem_filter.1 ha).2

section Passage

variable (c : Passage options plan schedule image slots t) (hplan : plan.options = options)
  (hopened : List.Forall₂ (fun e slot => Slot.Opened root e slot) entries slots) (horder : Entry.InOrder entries)
  (hstart : t.exchanges.filterMap moved? = [])

include hplan hopened horder hstart

/-- **The files of which an abort tells are those that were moved to their destinations.** -/
theorem Passage.committed_eq {names : RealPath} (hnames : names.IsProper) (hroot : root = names.toPath) {all : List Entry}
    (hall : (all.map (·.path)).Nodup) (hselected : entries.Sublist all) :
    RunPlan.committedPaths (c.waiting.filter (·.isPending)) c.results =
      (all.filter fun e => e.isFile && (sanitize root e.path).toOption.any c.afterFiles.installed).map (·.path) := by
  have hentries : c.waiting.map (·.entry) = entries := c.map_entry_waiting hopened
  have hsublist : (RunPlan.committedPaths (c.waiting.filter (·.isPending)) c.results).Sublist (all.map (·.path)) := by
    obtain ⟨looks, jobs, log, hrun⟩ := c.filesRun hplan
    refine (committedPaths_sublist hrun.length_results).trans ((List.filter_sublist.map _).trans ?_)
    have hpaths : c.waiting.map (·.entry.path) = entries.map (·.path) := hentries ▸ List.map_map.symm
    exact hpaths ▸ hselected.map _
  rw [eq_filter_of_sublist hall hsublist, List.filter_map]
  refine congrArg (List.map _) (List.filter_congr fun e he => ?_)
  have hwaiting : ∀ {slot : Slot}, WrittenAt (c.waiting.filter (·.isPending)) c.results slot →
      slot ∈ c.waiting ∧ slot.isPending = true ∧ slot.entry ∈ all := by
    rintro slot ⟨i, o, hslot, -, -⟩
    obtain ⟨hslot, hpending⟩ := List.mem_filter.1 (List.mem_of_getElem? hslot)
    exact ⟨hslot, hpending, hselected.subset (hentries ▸ List.mem_map_of_mem hslot)⟩
  rw [Bool.eq_iff_iff, Function.comp_apply, List.contains_iff_mem, mem_committedPaths, Bool.and_eq_true, Option.any_eq_true]
  constructor
  · rintro ⟨slot, hwritten, hpath⟩
    obtain ⟨hslot, hpending, hmem⟩ := hwaiting hwritten
    obtain ⟨hfile, -, hplaced⟩ := Slot.isPending_iff.1 hpending
    obtain rfl := List.inj_on_of_nodup_map hall hmem he hpath
    obtain ⟨q, hq⟩ := Option.ne_none_iff_exists'.1 hplaced
    refine ⟨hfile, q, ?_, (c.installed_iff hplan hopened horder hstart).2 ⟨slot, hwritten, hq⟩⟩
    rw [(c.destination_iff_of_waiting hopened hslot).1 hq]
    rfl
  · rintro ⟨hfile, q, hq, hinstalled⟩
    obtain ⟨slot, hwritten, hdestination⟩ := (c.installed_iff hplan hopened horder hstart).1 hinstalled
    refine ⟨slot, hwritten, ?_⟩
    have hslot := (c.destination_iff_of_waiting hopened (hwaiting hwritten).1).1 hdestination
    have hentry : sanitize root e.path = .ok q := by
      cases hsanitize : sanitize root e.path with
      | error err =>
        rw [hsanitize] at hq
        cases hq
      | ok q' =>
        rw [hsanitize] at hq
        exact congrArg _ (Option.some.inj hq)
    rw [hroot] at hslot hentry
    exact sanitize_injective hnames hslot hentry

end Passage

/-- What a file raises is its own path error, which it fails with, and the run is strict. -/
theorem path_error_of_raise {log : List (Exchange Session)}
    (h : (plan.placeFile image p e).Ends (RunState.handler options) log o) (hraise : .raise cause ∈ marks log) :
    o = .ofError cause ∧ cause.isPathError = true ∧ plan.options.strict = true := by
  obtain ⟨asked, result, -, -, failure, hmarks, hfailure⟩ := placeFile_ends h
  rw [hmarks] at hraise
  have hmem : .raise cause ∈ failure := by
    rcases List.mem_append.1 hraise with hmem | hlast
    · exact hmem
    · cases List.mem_singleton.1 hlast
  rcases hfailure with ⟨-, -, rfl⟩ | ⟨err, -, ho, rfl⟩
  · cases hmem
  · rw [RunPlan.failureMarks] at hmem
    split at hmem
    · next hfatal =>
      rw [Bool.and_eq_true] at hfatal
      rcases List.mem_cons.1 hmem with hstop | hmem
      · cases hstop
      · cases List.mem_singleton.1 hmem
        exact ⟨ho, hfatal⟩
    · split at hmem
      · cases List.mem_singleton.1 hmem
      · cases hmem

/-- Something fatal was raised by the job of a file. -/
theorem Passage.exists_raise (c : Passage options plan schedule image slots t) (hplan : plan.options = options)
    (hstart : t.fatal = none) (hfatal : c.afterFiles.fatal = some cause) :
    ∃ (i : Nat) (slot : Slot) (p : Path) (o : Outcome) (log : List (Exchange Session)),
      (c.waiting.filter (·.isPending))[i]? = some slot ∧ c.results[i]? = some (some o) ∧ slot.destination = some p ∧
      (plan.placeFile image p slot.entry).Ends (RunState.handler options) log o ∧ .raise cause ∈ marks log := by
  obtain ⟨first, hfirst, hdirectories⟩ := c.directories.exists_leads
  obtain ⟨second, hsecond, hwrote, -⟩ := c.blocking
  obtain ⟨looks, jobs, log, hrun⟩ := c.filesRun hplan
  have hnone : c.atFiles.fatal = none := by
    refine hsecond.fatal_eq_none_iff.2 ⟨hfirst.fatal_eq_none_iff.2 ⟨hstart, fun e hraise => ?_⟩, fun e hraise => ?_⟩
    · rcases hdirectories _ hraise with hwrong | ⟨hwrong, -⟩ <;> cases hwrong
    · cases hwrote _ hraise
  rcases hrun.leads.raise_mem_of_fatal hfatal with hbefore | hraise
  · rw [hnone] at hbefore
    cases hbefore
  · obtain ⟨j, hj, hraise⟩ := List.mem_flatMap.1 ((marks_filesRun hrun).mem_iff.1 hraise)
    obtain ⟨slot, p, hslot, hp, hends⟩ := exists_placeFile_of_job (fun _ hslot => destination_of_pending hslot) hrun hj
    exact ⟨j.index, slot, p, j.result, j.log, hslot, hrun.getElem?_results hj, hp, hends, hraise⟩

/-! ## Extraction -/

/-- A run that was aborted was prepared, and met something fatal in its file pass. -/
theorem extract_aborted {target : Option Path}
    (h : extract options schedule image target s = (.error (.aborted cause committed), s')) :
    ∃ (plan : RunPlan) (slots : List Slot) (t : RunState), plan.options = options ∧
      resolveRoot s.fs.cwd.toPath s.fs.executable options.defaultRoot target = .ok plan.root ∧
      slotsFor plan.root options.strict (image.manifest.select options.filter) = .ok slots ∧
      (∃ log asked, (RunState.handler options).Leads s log t ∧ marks log = [] ∧
        (prepareRoot plan.root).Ends FileSystem.answer asked (.ok plan.realRoot) ∧
        fileCalls log = fileCalls (asked.map onFile)) ∧
      ∃ c : Passage options plan schedule image slots t, c.afterFiles.fatal = some cause ∧ s' = c.afterFiles ∧
        committed = RunPlan.committedPaths (c.waiting.filter (·.isPending)) c.results := by
  obtain ⟨err, hprepare, heq⟩ | ⟨plan, slots, t, -, hplan, hroot, hslots, hprepared, hexecute⟩ := extract_cases h
  · have hnever := (prepare_never_aborts s.fs.cwd.toPath s.fs.executable target).run s err (by rw [hprepare])
    rw [← Except.error.inj heq] at hnever
    cases hnever
  · refine ⟨plan, slots, t, hplan, hroot, hslots, hprepared, ?_⟩
    obtain ⟨err, hpass, heq⟩ | ⟨c, ⟨cause', hfatal, hs', heq⟩ | ⟨-, report, heq, -⟩⟩ := RunPlan.execute_cases hplan hexecute
    · have hfails := directoryPass_fails.run t err (by rw [hpass])
      rw [← Except.error.inj heq] at hfails
      cases hfails
    · cases heq
      exact ⟨c, hfatal, hs', rfl⟩
    · cases heq

/-- **An abort names exactly what was committed.** Whatever its listener does, and however its workers take turns, a run
    that was aborted is strict and its cause is a path error. The list has the paths of the file entries to whose
    destinations the run moved a file that it had staged, those of all workers up to the end of the run, in the order of
    the manifest and each once. -/
theorem extract_aborts (options : ExtractOptions) (schedule : List Nat) {bytes : Bytes} {image : Image}
    (hparse : Image.parse bytes = .ok image) (target : Option Path) (fs : FileSystem) {cause : ExtractError}
    {committed : List String} {s : RunState}
    (h : extract options schedule image target (.start fs options) = (.error (.aborted cause committed), s)) :
    options.strict = true ∧ cause.isPathError = true ∧ committed.Nodup ∧ ∃ root,
      resolveRoot fs.cwd.toPath fs.executable options.defaultRoot target = .ok root ∧
      committed = (image.manifest.entries.filter fun e =>
        e.isFile && (sanitize root e.path).toOption.any s.installed).map (·.path) := by
  obtain ⟨plan, slots, t, hplan, hroot, hslots, ⟨log, asked, hleads, hmarks, hprepare, hasked⟩, c, hfatal, rfl, rfl⟩ :=
    extract_aborted h
  have hopened := slotsFor_opened hslots
  have horder : Entry.InOrder (image.manifest.select options.filter) := Image.inOrder_select hparse
  have hall := Image.nodup_of_parse hparse
  obtain ⟨names, hnames, hspelled⟩ := resolveRoot_eq_ok hroot
  have hledger := hleads.ledger
  rw [hmarks] at hledger
  obtain ⟨-, slot, p, o, said, -, -, -, hends, hraise⟩ := c.exists_raise hplan (congrArg Ledger.fatal hledger) hfatal
  obtain ⟨-, hpath, hstrict⟩ := path_error_of_raise hends hraise
  -- preparing the root moved nothing
  have hstart : t.exchanges.filterMap moved? = [] := by
    rw [hspelled] at hprepare
    have hstays : ∀ x ∈ asked, FileCall.Stays x.1 :=
      ((prepareRoot_asks hnames (fun _ => trivial) (fun _ => trivial) trivial).ends hprepare).1
    rw [hleads.exchanges, List.filterMap_append, moved_eq_nil_of_calls]
    · rfl
    · intro call hcall
      rw [hasked] at hcall
      obtain ⟨x, hx, rfl⟩ := mem_fileCalls_map_onFile.1 hcall
      exact hstays x hx
  have hcommitted := c.committed_eq hplan hopened horder hstart hnames hspelled hall (image.manifest.select_sublist _)
  refine ⟨hplan ▸ hstrict, hpath, ?_, plan.root, hroot, hcommitted⟩
  rw [hcommitted]
  exact hall.sublist (List.filter_sublist.map _)

/-- Whoever listens puts a link out of the root in the place of a directory when the second file is done. The worker that
    did it meets the link, and the first file is finished by the other worker after that. -/
theorem extract_aborts_beside_worker :
    let listener : ProgressListener := fun p fs =>
      (if p.current = "b" then (fs.eraseTree [utf8 "out", utf8 "d"]).put [utf8 "out", utf8 "d"] (.symlink (utf8 "../away"))
        else fs, false)
    let options : ExtractOptions := { workers := 2, onProgress := some listener }
    let image : Image := .written
      ⟨[.directory "d" none, .file "a" 0 1 (.of [120]) none, .file "b" 0 0 (.of []) none, .file "d/f" 0 0 (.of []) none]⟩
      [120]
    let fs := rootWith [([utf8 "away"], .directory 0o755)]
    Image.parse image.source = .ok image ∧
      ∃ s, extract options [1, 1, 1] image (some (.ofString "/out")) (.start fs options) =
          (.error (.aborted (.escape "d/f" (.ofString "/away")) ["a", "b"]), s) ∧
        (ExtractError.escape "d/f" (.ofString "/away")).isPathError = true ∧ ∃ root,
          resolveRoot fs.cwd.toPath fs.executable options.defaultRoot (some (.ofString "/out")) = .ok root ∧
          ["a", "b"] = (image.manifest.entries.filter fun e =>
            e.isFile && (sanitize root e.path).toOption.any s.installed).map (·.path) := by
  intro listener options image fs
  have hvalid : ∀ d d' : Digest, Manifest.validate
      ⟨[.directory "d" none, .file "a" 0 1 d none, .file "b" 0 0 d' none, .file "d/f" 0 0 d' none]⟩ 1 = .ok () := by
    intro d d'
    cbv
  have hparse : Image.parse image.source = .ok image :=
    Image.parse_written (by decide) (by decide) (hvalid _ _) (by decide)
  have hresult : (extract options [1, 1, 1] image (some (.ofString "/out")) (.start fs options)).1 =
      .error (.aborted (.escape "d/f" (.ofString "/away")) ["a", "b"]) := by decide +kernel
  have hrun : extract options [1, 1, 1] image (some (.ofString "/out")) (.start fs options) =
      (.error (.aborted (.escape "d/f" (.ofString "/away")) ["a", "b"]),
        (extract options [1, 1, 1] image (some (.ofString "/out")) (.start fs options)).2) := Prod.ext hresult rfl
  obtain ⟨-, hpath, -, hcommitted⟩ := extract_aborts options [1, 1, 1] hparse (some (.ofString "/out")) fs hrun
  exact ⟨hparse, _, hrun, hpath, hcommitted⟩

end TreeImage
