import TreeImage.Proofs.Extract.Directories
import TreeImage.Proofs.Extract.FileClaims
import TreeImage.Proofs.Extract.Preparation

set_option autoImplicit false

/-! # What a run adds before its files

Up to the file pass a run only adds directories (`Grows`): on the way to the root, and for directory entries.
So a directory that was made for a slot stands where nothing stood before, and one that a slot calls in place
is confirmed to be inside the real root (`Slot.Grounded`). -/

namespace TreeImage

open FileSystem

variable {α : Type} {names real r : RealPath} {n : Name} {start fs fs' : FileSystem} {p destination : Path}
  {post : α → Unit → FileSystem → Prop} {entry : String} {slot : Slot} {slots : List Slot}

/-- The discipline of a part that is alone and only adds directories. -/
abbrev growing : Discipline (I := Files) FileSystem.answer Unit :=
  .alone _ fun c fs => Grows fs (fs.answer c).2

theorem letsAsk_growing : growing.LetsAsk := by
  intro _ c fs hstill
  show Grows fs (fs.answer c).2
  rw [hstill]
  exact .refl fs

theorem Program.Obeys.grows {prog : Program Files α} (h : prog.Obeys growing post () fs) :
    prog.Obeys growing (fun a k fs' => post a k fs' ∧ Grows fs fs') () fs :=
  h.later .refl .trans fun _ _ hmay => hmay

theorem growing_makeDirectory {f : Except Refusal Unit → Program Files α}
    (herror : ∀ e, (f (.error e)).Obeys growing post () fs)
    (hok : ∀ fs', fs.makeDirectory p = .ok fs' → (f (.ok ())).Obeys growing post () fs') :
    (Files.makeDirectory p >>= f).Obeys growing post () fs := by
  have hcall : Grows fs (fs.settle (fs.makeDirectory p)).2 ∧
      (f (fs.settle (fs.makeDirectory p)).1).Obeys growing post () (fs.settle (fs.makeDirectory p)).2 :=
    settle_cases (P := fun reply fs' => Grows fs fs' ∧ (f reply).Obeys growing post () fs')
      (fun e _ => ⟨.refl fs, herror e⟩) fun fs' hmake => ⟨.makeDirectory hmake, hok fs' hmake⟩
  exact Program.obeys_alone_call hcall.1 hcall.2

theorem growing_isDirectory {f : Bool → Program Files α}
    (h : (f (fs.isDirectory p)).Obeys growing post () fs) :
    (Files.isDirectory p >>= f).Obeys growing post () fs := by
  refine ask_isDirectory letsAsk_growing ?_
  rintro _ rfl -
  exact h

/-! ## The root -/

theorem acceptDirectory_growing (p : Path) (e : Refusal) :
    (do if ← Files.isDirectory p then return .ok () else return .error e :
      Program Files (Except Refusal Unit)).Obeys growing (fun _ _ _ => True) () fs := by
  refine growing_isDirectory ?_
  split <;> trivial

theorem makeAlong_growing (place : RealPath) (depth : Nat) :
    (makeAlong place depth).Obeys growing (fun _ _ _ => True) () fs := by
  induction depth generalizing fs with
  | zero => trivial
  | succ depth ih =>
    unfold makeAlong
    refine growing_makeDirectory ?_ fun _ _ => trivial
    intro e
    cases e with
    | notFound =>
      refine ih.bind ?_
      rintro (e | ⟨⟩) ⟨⟩ fs' -
      · trivial
      · exact growing_makeDirectory (fun e => acceptDirectory_growing _ e) fun _ _ => trivial
    | _ => exact acceptDirectory_growing _ _

theorem prepareRoot_growing (root : Path) :
    (prepareRoot root).Obeys growing (fun _ _ _ => True) () fs := by
  have hsettle : ∀ fs : FileSystem, (do return (← Files.realPath root).mapError (.target root) :
      Program Files (Except ExtractError Path)).Obeys growing (fun _ _ _ => True) () fs :=
    fun fs => ask_realPath letsAsk_growing fun _ _ _ => trivial
  unfold prepareRoot
  refine ask_inspect letsAsk_growing ?_
  rintro fs rfl -
  cases fs.inspect true root with
  | ok info =>
    show Program.Obeys _ _ (if info.isDirectory then _ else _) _ _
    split
    · exact hsettle fs
    · trivial
  | error e =>
    cases e with
    | notFound =>
      refine (makeAlong_growing _ _).bind ?_
      rintro (e | ⟨⟩) ⟨⟩ fs' -
      · trivial
      · exact hsettle fs'
    | _ => trivial

/-- Nothing was done for the slot: no directory was made, and an outcome is a failure. -/
structure Slot.Fresh (slot : Slot) : Prop where
  made : slot.made = false
  outcome : ∀ o, slot.outcome = some o → o.isFailure = true

theorem Slot.Opened.fresh {root : Path} {e : Entry} (h : slot.Opened root e) : slot.Fresh := by
  rcases h with ⟨p, -, rfl⟩ | ⟨err, -, rfl⟩
  · exact ⟨rfl, nofun⟩
  · refine ⟨rfl, ?_⟩
    rintro _ ⟨⟩
    rfl

section Preparation

variable {options : ExtractOptions} (hquiet : options.IsQuiet) {image : Image} {s : RunState}

theorem prepare_growing (cwd executable : Path) (target : Option Path) :
    (prepare options cwd executable image target).Obeys (growing.inSession hquiet)
      (fun result _ s' => Grows s.fs s'.fs ∧ ∀ plan slots, result = .ok (plan, slots) →
        ∀ slot ∈ slots, slot.Fresh) () s := by
  have hlooks : Session.isCancelled.IsTacit := ⟨trivial, fun _ => trivial⟩
  unfold prepare
  refine Program.Obeys.bind hlooks.obeys ?_
  rintro cancelled ⟨⟩ t ⟨-, ht⟩
  obtain ht : t.fs = s.fs := ht
  have hsame : Grows s.fs t.fs := ht ▸ .refl s.fs
  show (if cancelled then _ else _ : Program Session _).Obeys _ _ _ _
  split
  · exact ⟨hsame, by rintro _ _ ⟨⟩⟩
  · cases resolveRoot cwd executable options.defaultRoot target with
    | error e => exact ⟨hsame, by rintro _ _ ⟨⟩⟩
    | ok root =>
      simp only
      cases hslots : slotsFor root options.strict (image.manifest.select options.filter) with
      | error e => exact ⟨hsame, by rintro _ _ ⟨⟩⟩
      | ok slots =>
        simp only
        refine (prepareRoot_growing root).grows.onFiles.bind ?_
        rintro (e | realRoot) ⟨⟩ u ⟨-, hgrows⟩
        · exact ⟨hsame.trans hgrows, by rintro _ _ ⟨⟩⟩
        · refine ⟨hsame.trans hgrows, ?_⟩
          rintro _ _ ⟨⟩ slot hslot
          obtain ⟨e, -, hopened⟩ := exists_of_forall₂ (slotsFor_opened hslots) hslot
          exact hopened.fresh

include hquiet in
/-- A preparation that was run has only made what was missing, and nothing was done for the slots. -/
theorem run_prepare_grows {s' : RunState} {cwd executable : Path} {target : Option Path}
    {result : Except ExtractError (RunPlan × List Slot)}
    (h : (prepare options cwd executable image target).run (RunState.handler options) s = (result, s')) :
    Grows s.fs s'.fs ∧ ∀ plan slots, result = .ok (plan, slots) → ∀ slot ∈ slots, slot.Fresh := by
  obtain ⟨⟨⟩, hgrows, -, -⟩ := (prepare_growing hquiet cwd executable target).run trivial
  rw [h] at hgrows
  exact hgrows

end Preparation

/-! ## One directory -/

/-- What is accepted leads to a directory, in a directory that was there. -/
theorem acceptExisting_growing (hproper : RealPath.IsProper (r ++ [n])) (e : FsError) :
    (do if ← Files.isDirectory (RealPath.toPath (r ++ [n])) then return .ok .existing else return .error e :
      Program Files (Except FsError DirectoryState)).Obeys growing
      (fun result _ fs' => ∀ state, result = .ok state → ∃ d q, fs.LeadsTo r.toPath q ∧
        fs'.LeadsTo (RealPath.toPath (r ++ [n])) d ∧ (state = .created → fs.get? d = none)) () fs := by
  refine growing_isDirectory ?_
  split
  · next hdir =>
    obtain ⟨d, hd⟩ := isDirectory_iff.1 hdir
    obtain ⟨m, hfind⟩ := hd.find
    obtain ⟨q, hq⟩ := leadsTo_of_find_entry hproper hfind
    rintro _ ⟨⟩
    exact ⟨d, q, hq, hd, nofun⟩
  · exact nofun

/-- A directory that stands at a path, in a directory that was there, is new if it was made. -/
theorem ensureDirectory_growing (hproper : RealPath.IsProper (r ++ [n])) :
    (ensureDirectory (RealPath.toPath (r ++ [n])) none).Obeys growing
      (fun result _ fs' => ∀ state, result = .ok state → ∃ d q, fs.LeadsTo r.toPath q ∧
        fs'.LeadsTo (RealPath.toPath (r ++ [n])) d ∧ (state = .created → fs.get? d = none)) () fs := by
  unfold ensureDirectory
  refine ask_inspectLink letsAsk_growing ?_
  rintro fs rfl -
  cases hinspect : fs.inspect false (RealPath.toPath (r ++ [n])) with
  | ok info =>
    obtain ⟨d, x, hfind, hkind⟩ := inspect_eq_ok hinspect
    simp only [hkind]
    cases x with
    | directory m =>
      obtain ⟨q, hq⟩ := leadsTo_of_find_entry hproper hfind
      rintro _ ⟨⟩
      refine ⟨d, q, hq, leadsTo_of_find_directory hproper hfind, ?_⟩
      rintro ⟨⟩
    | symlink target => exact acceptExisting_growing hproper _
    | _ => rintro _ ⟨⟩
  | error e =>
    cases e with
    | notFound =>
      simp only [createMissing]
      refine growing_makeDirectory ?_ ?_
      · intro e
        cases e with
        | alreadyExists => exact acceptExisting_growing hproper _
        | _ => rintro _ ⟨⟩
      · intro fs' hmake
        obtain ⟨q, mode, hq, hnone, rfl, hleads⟩ := makeDirectory_entry_eq_ok hproper hmake
        rintro _ ⟨⟩
        exact ⟨_, q, hq, hleads, fun _ => hnone⟩
    | _ => rintro _ ⟨⟩

/-- The path leads to a directory inside the real root, and names an entry of one. -/
def StandsInside (real : RealPath) (fs : FileSystem) (p : Path) (n : Name) : Prop :=
  ∃ d q, fs.LeadsTo p d ∧ real <+: d ∧ fs.Names p q n ∧ real <+: q

theorem StandsInside.keeps (h : StandsInside real fs p n) (hkeeps : Keeps fs fs') :
    StandsInside real fs' p n := by
  obtain ⟨d, q, hd, hin, hq, hin'⟩ := h
  exact ⟨d, q, hkeeps.leadsTo hd, hin, hkeeps.names hq, hin'⟩

/-- **A directory entry that is dealt with stands inside the real root**, and where it was made nothing stood. -/
theorem createDirectory_growing (hreal : real.IsProper) (hproper : RealPath.IsProper (r ++ [n])) :
    (createDirectory real.toPath (RealPath.toPath (r ++ [n])) entry).Obeys growing
      (fun result _ fs' => ∀ state, result = .ok state → StandsInside real fs' (RealPath.toPath (r ++ [n])) n ∧
        (state = .created → ∃ d, fs'.LeadsTo (RealPath.toPath (r ++ [n])) d ∧ fs.get? d = none)) () fs := by
  unfold createDirectory
  refine (confirmParent_obeys letsAsk_growing hreal hproper).bind ?_
  rintro (e | ⟨⟩) ⟨⟩ fs₁ ⟨-, rfl, -, hparent⟩
  · exact nofun
  · obtain ⟨q, hq, hin⟩ := hparent rfl
    refine (ensureDirectory_growing hproper).grows.bind ?_
    rintro (e | state) ⟨⟩ fs₂ ⟨hensured, hgrows⟩
    · exact nofun
    · obtain ⟨d, q', hq', hd, hnew⟩ := hensured state rfl
      obtain rfl : q' = q := Except.ok.inj (hq'.1.symm.trans hq)
      refine (confirmWithin_obeys letsAsk_growing hreal hproper).bind ?_
      rintro (e | real') ⟨⟩ fs₃ ⟨-, rfl, -, hwithin⟩
      · exact nofun
      · obtain ⟨d', hd', hin'⟩ := hwithin real' rfl
        obtain rfl : d' = d := Except.ok.inj (hd'.symm.trans hd.1)
        rintro _ ⟨⟩
        refine ⟨⟨d', q', hd, hin', ⟨r, hproper, rfl, hgrows.keeps.leadsTo hq'⟩, hin⟩, ?_⟩
        exact fun hcreated => ⟨d', hd, hnew hcreated⟩

/-! ## Slots -/

/-- A directory that was made for the slot is where its destination leads, and nothing stood there before. -/
def Slot.MadeNew (start fs : FileSystem) (slot : Slot) : Prop :=
  slot.made = true → ∃ p d, slot.destination = some p ∧ fs.LeadsTo p d ∧ start.get? d = none

theorem Slot.MadeNew.keeps (h : slot.MadeNew start fs) (hkeeps : Keeps fs fs') : slot.MadeNew start fs' := by
  intro hmade
  obtain ⟨p, d, hp, hd, hnew⟩ := h hmade
  exact ⟨p, d, hp, hkeeps.leadsTo hd, hnew⟩

/-- What a slot says before the file pass is the case: a directory that was made for it is new, a directory
    entry that did not fail stands inside the real root, and a file can only have failed so far. -/
structure Slot.Grounded (real : RealPath) (start fs : FileSystem) (slot : Slot) : Prop where
  made : slot.MadeNew start fs
  directory : slot.entry.isFile = false → ∀ o, slot.outcome = some o → o.isFailure = false →
    o.InPlace ∧ ∃ p, slot.destination = some p ∧ StandsInside real fs p slot.name
  file : slot.entry.isFile = true → ∀ o, slot.outcome = some o → o.isFailure = true

theorem Slot.Grounded.keeps (h : slot.Grounded real start fs) (hkeeps : Keeps fs fs') :
    slot.Grounded real start fs' := by
  refine ⟨h.made.keeps hkeeps, ?_, h.file⟩
  intro hdir o ho hok
  obtain ⟨hplace, p, hp, hstands⟩ := h.directory hdir o ho hok
  exact ⟨hplace, p, hp, hstands.keeps hkeeps⟩

theorem Slot.Fresh.grounded (h : slot.Fresh) (real : RealPath) (start fs : FileSystem) :
    slot.Grounded real start fs := by
  refine ⟨?_, ?_, fun _ => h.outcome⟩
  · simp [Slot.MadeNew, h.made]
  · intro _ o ho hok
    rw [h.outcome o ho] at hok
    cases hok

theorem isFailure_of_blocked? {failures : RunPlan.Failures} {e : Entry} {o : Outcome}
    (h : RunPlan.blocked? failures e = some o) : o.isFailure = true := by
  unfold RunPlan.blocked? at h
  split at h
  · cases h
  · obtain ⟨kind, -, rfl⟩ := Option.map_eq_some_iff.1 h
    rfl

section Pass

variable {plan : RunPlan} {options : ExtractOptions} (hquiet : options.IsQuiet) {s : RunState}

theorem placeDirectory_growing {failures : RunPlan.Failures} {e : Entry} (hroot : plan.Rooted names real s.fs)
    (hdestination : sanitize plan.root e.path = .ok destination) :
    (plan.placeDirectory failures destination e).Obeys (growing.inSession hquiet)
      (fun result _ s' => Grows s.fs s'.fs ∧ ∀ o made, result = .ok (o, made) →
        (made = true → ∃ d, s'.fs.LeadsTo destination d ∧ s.fs.get? d = none) ∧
        (o.isFailure = false → o.InPlace ∧ StandsInside real s'.fs destination e.name)) () s := by
  rw [hroot.root] at hdestination
  obtain ⟨r, hproper, rfl⟩ := exists_destination_eq hroot.properNames hdestination
  unfold RunPlan.placeDirectory
  cases hblocked : RunPlan.blocked? failures e with
  | some o =>
    refine ⟨.refl s.fs, ?_⟩
    rintro _ _ ⟨⟩
    refine ⟨by rintro ⟨⟩, fun hok => ?_⟩
    rw [isFailure_of_blocked? hblocked] at hok
    cases hok
  | none =>
    show (plan.tryDirectory _ e).Obeys _ _ _ _
    unfold RunPlan.tryDirectory
    rw [hroot.realRoot]
    refine (createDirectory_growing hroot.properReal hproper).grows.onFiles.bind ?_
    rintro (err | state) ⟨⟩ t ⟨hstate, hgrows⟩
    · show (if _ then _ else _ : Program Session _).Obeys _ _ _ _
      split
      · exact ⟨hgrows, by rintro _ _ ⟨⟩⟩
      · have hfailed : ∀ u : RunState, u.fs = t.fs → Grows s.fs u.fs ∧ ∀ o made,
            (Except.ok (Outcome.ofError err, false) : Except ExtractError (Outcome × Bool)) = .ok (o, made) →
            (made = true → ∃ d, u.fs.LeadsTo (RealPath.toPath (r ++ [utf8 (lastSegment e.path)])) d ∧
              s.fs.get? d = none) ∧ (o.isFailure = false → o.InPlace ∧
                StandsInside real u.fs (RealPath.toPath (r ++ [utf8 (lastSegment e.path)])) e.name) := by
          intro u hu
          refine ⟨hu ▸ hgrows, ?_⟩
          rintro _ _ ⟨⟩
          exact ⟨by rintro ⟨⟩, by rintro ⟨⟩⟩
        cases plan.options.stopOnFirstError with
        | false => exact hfailed t rfl
        | true =>
          have hstop : Session.stop.IsTacit := ⟨trivial, fun _ => trivial⟩
          refine Program.Obeys.bind hstop.obeys ?_
          rintro ⟨⟩ ⟨⟩ u ⟨-, hu⟩
          exact hfailed u hu
    · obtain ⟨hstands, hnew⟩ := hstate state rfl
      cases state with
      | created =>
        refine ⟨hgrows, ?_⟩
        rintro _ _ ⟨⟩
        exact ⟨fun _ => hnew rfl, fun _ => ⟨.inl rfl, hstands⟩⟩
      | existing =>
        refine ⟨hgrows, ?_⟩
        rintro _ _ ⟨⟩
        exact ⟨by rintro ⟨⟩, fun _ => ⟨.inr (.inr rfl), hstands⟩⟩

/-- A slot before the file pass, in a file system that grew from that at the start. -/
structure Slot.Prepared (plan : RunPlan) (names real : RealPath) (start fs : FileSystem) (slot : Slot) : Prop where
  rooted : plan.Rooted names real fs
  grows : Grows start fs
  destination : ∀ p, slot.destination = some p → sanitize plan.root slot.entry.path = .ok p
  grounded : slot.Grounded real start fs

/-- Grounded slots stay grounded in the passes over directories. -/
theorem carries_prepared (start : FileSystem) : plan.Carries hquiet (fun c fs => Grows fs (fs.answer c).2) Grows
    (Slot.Prepared plan names real start) where
  refl := .refl
  trans := .trans
  lasts h hgrows := ⟨h.rooted.keeps hgrows.keeps, h.grows.trans hgrows, h.destination, h.grounded.keeps hgrows.keeps⟩
  place {failures slot destination s} h hfile hdestination := by
    have hsanitized := h.destination destination hdestination
    refine (placeDirectory_growing hquiet h.rooted hsanitized).imp ?_
    rintro result ⟨⟩ s' ⟨hgrows, hplaced⟩
    refine ⟨hgrows, ?_⟩
    intro o made hok
    obtain ⟨hmade, hstands⟩ := hplaced o made hok
    refine ⟨h.rooted.keeps hgrows.keeps, h.grows.trans hgrows, ?_, ?_, ?_, ?_⟩
    · rintro _ ⟨⟩
      exact hsanitized
    · intro htrue
      obtain ⟨d, hd, hnew⟩ := hmade htrue
      exact ⟨destination, d, rfl, hd, h.grows.get?_eq_none hnew⟩
    · rintro - _ ⟨⟩ hok
      obtain ⟨hplace, hstands⟩ := hstands hok
      exact ⟨hplace, destination, rfl, hstands⟩
    · intro htrue
      exact absurd (hfile.symm.trans htrue) Bool.false_ne_true
  block {fs slot failures o} h hfile _ hblocked := by
    refine ⟨h.rooted, h.grows, h.destination, h.grounded.made, ?_, ?_⟩
    · intro hdir
      exact absurd (hdir.symm.trans hfile) Bool.false_ne_true
    · rintro - _ ⟨⟩
      exact isFailure_of_blocked? hblocked

/-- **The passes over directories only add directories**, and what their slots say is grounded. -/
theorem directories_growing (hroot : plan.Rooted names real s.fs) (hgrows : Grows start s.fs)
    (hdestinations : ∀ slot ∈ slots, ∀ p, slot.destination = some p → sanitize plan.root slot.entry.path = .ok p)
    (hfresh : ∀ slot ∈ slots, slot.Fresh) :
    (plan.directories slots).Obeys (growing.inSession hquiet)
      (fun result _ s' => Grows s.fs s'.fs ∧ ∀ slots', result = .ok slots' →
        slots'.map (·.entry) = slots.map (·.entry) ∧ ∀ slot ∈ slots', slot.Prepared plan names real start s'.fs)
      () s :=
  (carries_prepared hquiet start).directories hquiet fun slot hslot =>
    ⟨hroot, hgrows, hdestinations slot hslot, (hfresh slot hslot).grounded real start s.fs⟩

end Pass

end TreeImage
