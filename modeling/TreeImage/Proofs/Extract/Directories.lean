import TreeImage.Proofs.Extract.Confirmation
import TreeImage.Proofs.Extract.Root

set_option autoImplicit false

/-! # The directory pass

A directory entry that did not fail is a directory where its destination leads, and one that was made lies
strictly inside the real root. Both stay so until the end of the run, since nothing takes directories or
links away. -/

namespace TreeImage

open FileSystem

variable {names real r : RealPath} {n : Name} {fs : FileSystem} {entry : String}

/-! ## One directory -/

/-- A link, or what was made by somebody else, is accepted if it leads to a directory. -/
theorem acceptExisting_obeys (p : Path) (e : FsError) :
    (do if ← Files.isDirectory p then return .ok .existing else return .error e :
      Program Files (Except FsError DirectoryState)).Obeys (tidy names)
      (fun result _ fs' => ∀ state, result = .ok state →
        ∃ d, fs'.LeadsTo p d ∧ (state = .created → real.Contains d)) () fs := by
  refine obeys_isDirectory ?_
  split
  · next hdir =>
    obtain ⟨d, hd⟩ := isDirectory_iff.1 hdir
    rintro _ ⟨⟩
    exact ⟨d, hd, fun h => nomatch h⟩
  · rintro _ ⟨⟩

/-- A directory that `ensureDirectory` lets stand is where its path leads, and one that it made is a new
    entry of the parent directory. -/
theorem ensureDirectory_obeys (hproper : RealPath.IsProper (r ++ [n])) {q : RealPath}
    (hq : fs.resolve true r.toPath = .ok q) (hroot : fs.LeadsTo names.toPath real) (hin : real <+: q) :
    (ensureDirectory (RealPath.toPath (r ++ [n])) none).Obeys (tidy names)
      (fun result _ fs' => ∀ state, result = .ok state →
        ∃ d, fs'.LeadsTo (RealPath.toPath (r ++ [n])) d ∧ (state = .created → real.Contains d)) () fs := by
  rw [ensureDirectory]
  refine obeys_inspectLink ?_
  cases hinspect : fs.inspect false (RealPath.toPath (r ++ [n])) with
  | ok info =>
    obtain ⟨d, x, hfind, hkind⟩ := inspect_eq_ok hinspect
    simp only [hkind]
    cases x with
    | directory m =>
      rintro _ ⟨⟩
      exact ⟨d, leadsTo_of_find_directory hproper hfind, fun h => nomatch h⟩
    | symlink target => exact acceptExisting_obeys _ _
    | _ => rintro _ ⟨⟩
  | error e =>
    cases e with
    | notFound =>
      simp only [createMissing]
      refine obeys_makeDirectory ?_ ?_
      · intro e _
        cases e with
        | alreadyExists => exact acceptExisting_obeys _ _
        | _ => rintro _ ⟨⟩
      · intro fs' hmake
        obtain ⟨d, mode, hd, hnone, rfl, hleads⟩ := makeDirectory_entry_eq_ok hproper hmake
        obtain rfl : q = d := Except.ok.inj (hq.symm.trans hd.1)
        have hcontains := RealPath.Contains.append hin n
        refine ⟨confined_put_new hroot hcontains hnone _, ?_⟩
        rintro _ ⟨⟩
        exact ⟨_, hleads, fun _ => hcontains⟩
    | _ => rintro _ ⟨⟩

/-- **A directory entry that is dealt with leads to a directory**, and one that was made lies strictly
    inside the real root. -/
theorem createDirectory_obeys (hreal : real.IsProper) (hproper : RealPath.IsProper (r ++ [n]))
    (hroot : fs.LeadsTo names.toPath real) :
    (createDirectory real.toPath (RealPath.toPath (r ++ [n])) entry).Obeys (tidy names)
      (fun result _ fs' => ∀ state, result = .ok state →
        ∃ d, fs'.LeadsTo (RealPath.toPath (r ++ [n])) d ∧ (state = .created → real.Contains d)) () fs := by
  refine (confirmParent_obeys (letsAsk_tidy names) hreal hproper).bind ?_
  rintro (e | ⟨⟩) ⟨⟩ fs' ⟨-, rfl, -, hok⟩
  · rintro _ ⟨⟩
  · obtain ⟨q, hq, hin⟩ := hok rfl
    refine (ensureDirectory_obeys hproper hq hroot hin).bind ?_
    rintro (e | state) ⟨⟩ fs' hensured
    · rintro _ ⟨⟩
    · refine (confirmWithin_obeys (letsAsk_tidy names) hreal hproper).bind ?_
      rintro (e | p) ⟨⟩ fs'' ⟨-, rfl, -, -⟩
      · rintro _ ⟨⟩
      · rintro _ ⟨⟩
        exact hensured state rfl

/-! ## Slots -/

/-- The outcome says that the entry is where it should be. -/
def Outcome.InPlace (o : Outcome) : Prop := o = .created ∨ o = .overwritten ∨ o = .skippedUnchanged

theorem Outcome.inPlace_iff {o : Outcome} : o.InPlace ↔ o.isFailure = false ∧ o ≠ .diverged := by
  cases o <;> simp [Outcome.InPlace, Outcome.isFailure]

theorem Outcome.not_inPlace_failed (kind : ErrorKind) (message : String) :
    ¬(Outcome.failed kind message).InPlace := by
  rintro (h | h | h) <;> cases h

/-- A directory that was made for the slot is where its destination leads, inside the real root. -/
def Slot.MadeInside (real : RealPath) (fs : FileSystem) (slot : Slot) : Prop :=
  slot.made = true → ∃ p d, slot.destination = some p ∧ fs.LeadsTo p d ∧ real.Contains d

theorem Slot.MadeInside.keeps {fs' : FileSystem} {slot : Slot} (h : slot.MadeInside real fs)
    (hkeeps : Keeps fs fs') : slot.MadeInside real fs' := by
  intro hmade
  obtain ⟨p, d, hp, hd, hcontains⟩ := h hmade
  exact ⟨p, d, hp, hkeeps.leadsTo hd, hcontains⟩

/-- What a slot says is the case: where its entry goes, and that its directory is there. -/
structure Slot.Sound (root : Path) (real : RealPath) (fs : FileSystem) (slot : Slot) : Prop where
  destination : ∀ p, slot.destination = some p → sanitize root slot.entry.path = .ok p
  rejected : slot.destination = none → ∃ o, slot.outcome = some o ∧ ¬o.InPlace
  made : slot.MadeInside real fs
  directory : slot.entry.isFile = false → ∀ o, slot.outcome = some o → o.InPlace →
    ∃ p d, slot.destination = some p ∧ fs.LeadsTo p d

theorem Slot.Sound.keeps {root : Path} {fs' : FileSystem} {slot : Slot} (h : slot.Sound root real fs)
    (hkeeps : Keeps fs fs') : slot.Sound root real fs' := by
  refine ⟨h.destination, h.rejected, h.made.keeps hkeeps, ?_⟩
  intro hdir o ho hplace
  obtain ⟨p, d, hp, hd⟩ := h.directory hdir o ho hplace
  exact ⟨p, d, hp, hkeeps.leadsTo hd⟩

/-- A failure says nothing of the file system. -/
theorem Slot.Sound.fail {root : Path} {slot : Slot} {o : Outcome} (h : slot.Sound root real fs)
    (ho : ¬o.InPlace) : Slot.Sound root real fs { slot with outcome := some o } := by
  refine ⟨h.destination, fun _ => ⟨o, rfl, ho⟩, h.made, ?_⟩
  rintro - _ ⟨⟩ hplace
  exact absurd hplace ho

/-- Sound slots for some entries, without any file that was dealt with. -/
structure Ready (root : Path) (real : RealPath) (fs : FileSystem) (entries : List Entry)
    (slots : List Slot) : Prop where
  entries : slots.map (·.entry) = entries
  sound : ∀ slot ∈ slots, slot.Sound root real fs
  waiting : ∀ slot ∈ slots, slot.entry.isFile = true → ∀ o, slot.outcome = some o → ¬o.InPlace

section Slots

variable {root : Path} {fs' : FileSystem} {entries : List Entry} {slot : Slot} {slots : List Slot}

theorem ready_nil (root : Path) (real : RealPath) (fs : FileSystem) : Ready root real fs [] [] :=
  ⟨rfl, fun _ h => absurd h List.not_mem_nil, fun _ h => absurd h List.not_mem_nil⟩

theorem ready_cons : Ready root real fs (slot.entry :: entries) (slot :: slots) ↔
    (slot.Sound root real fs ∧
      (slot.entry.isFile = true → ∀ o, slot.outcome = some o → ¬o.InPlace)) ∧
    Ready root real fs entries slots := by
  constructor
  · rintro ⟨hentries, hsound, hwaiting⟩
    obtain ⟨hhead, htail⟩ := List.forall_mem_cons.1 hsound
    obtain ⟨hhead', htail'⟩ := List.forall_mem_cons.1 hwaiting
    exact ⟨⟨hhead, hhead'⟩, (List.cons.inj hentries).2, htail, htail'⟩
  · rintro ⟨⟨hhead, hhead'⟩, hentries, htail, htail'⟩
    exact ⟨congrArg _ hentries, List.forall_mem_cons.2 ⟨hhead, htail⟩,
      List.forall_mem_cons.2 ⟨hhead', htail'⟩⟩

theorem Ready.keeps (h : Ready root real fs entries slots) (hkeeps : Keeps fs fs') :
    Ready root real fs' entries slots :=
  ⟨h.entries, fun slot hslot => (h.sound slot hslot).keeps hkeeps, h.waiting⟩

theorem sound_new {e : Entry} {destination : Path} (h : sanitize root e.path = .ok destination) :
    Slot.Sound root real fs { entry := e, destination := some destination } := by
  refine ⟨?_, nofun, nofun, fun _ o ho => nomatch ho⟩
  rintro p ⟨⟩
  exact h

theorem sound_failed {e : Entry} {destination : Option Path} (kind : ErrorKind) (message : String)
    (h : ∀ p, destination = some p → sanitize root e.path = .ok p) :
    Slot.Sound root real fs ⟨e, destination, some (.failed kind message), false⟩ := by
  refine ⟨h, fun _ => ⟨_, rfl, Outcome.not_inPlace_failed _ _⟩, nofun, ?_⟩
  rintro - _ ⟨⟩ hplace
  exact absurd hplace (Outcome.not_inPlace_failed _ _)

/-- The slots that a run starts with. -/
theorem slotsFor_eq_ok {strict : Bool} (h : slotsFor root strict entries = .ok slots) :
    Ready root real fs entries slots := by
  induction entries generalizing slots with
  | nil =>
    cases h
    exact ready_nil root real fs
  | cons e entries ih =>
    rw [slotsFor] at h
    cases hrest : slotsFor root strict entries with
    | error err =>
      rw [hrest] at h
      split at h
      · cases h
      · split at h <;> cases h
    | ok rest =>
      rw [hrest] at h
      have hready := ih hrest
      split at h
      · next destination hdestination =>
        cases h
        have hsound : Slot.Sound root real fs { entry := e, destination := some destination } :=
          sound_new hdestination
        exact ready_cons.2 ⟨⟨hsound, fun _ o ho => nomatch ho⟩, hready⟩
      · next err _ =>
        split at h
        · cases h
        · cases h
          have hsound : Slot.Sound root real fs ⟨e, none, some (.ofError err), false⟩ :=
            sound_failed err.kind err.message nofun
          refine ready_cons.2 ⟨⟨hsound, ?_⟩, hready⟩
          rintro - _ ⟨⟩
          exact Outcome.not_inPlace_failed _ _

end Slots

/-! ## The pass -/

section Pass

variable {plan : RunPlan} {options : ExtractOptions} (hquiet : options.IsQuiet) {s : RunState}
  {entries : List Entry} {slots : List Slot}

/-- The root of a plan leads to its real root. -/
structure RunPlan.Rooted (plan : RunPlan) (names real : RealPath) (fs : FileSystem) : Prop where
  properNames : names.IsProper
  root : plan.root = names.toPath
  realRoot : plan.realRoot = real.toPath
  leads : fs.LeadsTo names.toPath real

theorem RunPlan.Rooted.properReal (h : plan.Rooted names real fs) : real.IsProper :=
  isProper_of_resolve h.properNames h.leads.1

theorem RunPlan.Rooted.keeps {fs' : FileSystem} (h : plan.Rooted names real fs) (hkeeps : Keeps fs fs') :
    plan.Rooted names real fs' :=
  ⟨h.properNames, h.root, h.realRoot, hkeeps.leadsTo h.leads⟩

theorem isTacit_entryDone (plan : RunPlan) (path : String) (written : Nat) :
    (plan.entryDone path written).IsTacit :=
  ⟨trivial, fun _ => ⟨trivial, fun _ => ⟨trivial, fun _ => trivial⟩⟩⟩

theorem not_inPlace_of_blocked? {failures : RunPlan.Failures} {e : Entry} {o : Outcome}
    (h : RunPlan.blocked? failures e = some o) : ¬o.InPlace := by
  rw [RunPlan.blocked?] at h
  split at h
  · cases h
  · obtain ⟨kind, -, rfl⟩ := Option.map_eq_some_iff.1 h
    exact Outcome.not_inPlace_failed _ _

theorem blocked?_nil (e : Entry) : RunPlan.blocked? [] e = none := by
  unfold RunPlan.blocked?
  split <;> rfl

/-- Where no directory failed, no file is blocked. -/
theorem blockFiles_nil (plan : RunPlan) (slots : List Slot) : plan.blockFiles [] slots = .done slots := by
  induction slots with
  | nil => rfl
  | cons slot rest ih =>
    simp only [RunPlan.blockFiles, blocked?_nil, ite_self, ih]
    rfl

/-- A destination is an entry below the root. -/
theorem exists_destination_eq {path : String} {destination : Path} (hnames : names.IsProper)
    (h : sanitize names.toPath path = .ok destination) :
    ∃ r, RealPath.IsProper (r ++ [utf8 (lastSegment path)]) ∧
      destination = RealPath.toPath (r ++ [utf8 (lastSegment path)]) := by
  obtain ⟨hproper, rfl⟩ := sanitize_eq_ok hnames h
  obtain ⟨front, hfront⟩ := exists_entryNames_eq_append path
  have hall := RealPath.isProper_append.2 ⟨hnames, hproper⟩
  rw [hfront, ← List.append_assoc] at hall ⊢
  exact ⟨names ++ front, hall, rfl⟩

/-- What the outcome of a directory entry says of the file system. -/
def DirectoryPlaced (real : RealPath) (destination : Path) (fs : FileSystem) (o : Outcome) (made : Bool) :
    Prop :=
  (made = true → ∃ d, fs.LeadsTo destination d ∧ real.Contains d) ∧
    (o.InPlace → ∃ d, fs.LeadsTo destination d)

theorem directoryPlaced_failed {destination : Path} {o : Outcome} (ho : ¬o.InPlace) :
    DirectoryPlaced real destination fs o false := ⟨nofun, fun h => absurd h ho⟩

theorem sound_placed {root : Path} {e : Entry} {destination : Path} {o : Outcome} {made : Bool}
    (h : sanitize root e.path = .ok destination) (hplaced : DirectoryPlaced real destination fs o made) :
    Slot.Sound root real fs ⟨e, some destination, some o, made⟩ := by
  obtain ⟨hmade, hdirectory⟩ := hplaced
  refine ⟨?_, nofun, ?_, ?_⟩
  · rintro p ⟨⟩
    exact h
  · intro h
    obtain ⟨d, hd⟩ := hmade h
    exact ⟨destination, d, rfl, hd⟩
  · rintro - _ ⟨⟩ hplace
    obtain ⟨d, hd⟩ := hdirectory hplace
    exact ⟨destination, d, rfl, hd⟩

/-- A directory entry that is said to be in place is where its destination leads. -/
theorem placeDirectory_obeys {failures : RunPlan.Failures} {destination : Path} {e : Entry}
    (hroot : plan.Rooted names real s.fs) (hdestination : sanitize plan.root e.path = .ok destination) :
    (plan.placeDirectory failures destination e).Obeys ((tidy names).inSession hquiet)
      (fun result _ s' => Keeps s.fs s'.fs ∧ ∀ o made, result = .ok (o, made) →
        DirectoryPlaced real destination s'.fs o made) () s := by
  obtain ⟨hproperNames, hplan, hreal, hleads⟩ := hroot
  have hproperReal := isProper_of_resolve hproperNames hleads.1
  rw [hplan] at hdestination
  obtain ⟨r, hproper, rfl⟩ := exists_destination_eq hproperNames hdestination
  rw [RunPlan.placeDirectory]
  cases hblocked : RunPlan.blocked? failures e with
  | some o =>
    refine ⟨.refl s.fs, ?_⟩
    rintro _ _ ⟨⟩
    exact directoryPlaced_failed (not_inPlace_of_blocked? hblocked)
  | none =>
    show (plan.tryDirectory _ e).Obeys _ _ _ _
    rw [RunPlan.tryDirectory, hreal]
    refine (createDirectory_obeys hproperReal hproper hleads).confined.onFiles.bind ?_
    rintro (err | state) ⟨⟩ s' ⟨hstate, hconfined⟩
    · show (if _ then _ else _ : Program Session _).Obeys _ _ _ _
      split
      · exact ⟨hconfined.keeps, nofun⟩
      · have hfailed : ∀ (p : Path) (t : RunState), t.fs = s'.fs → Keeps s.fs t.fs ∧
            ∀ o made, (Except.ok (Outcome.ofError err, false) : Except ExtractError (Outcome × Bool)) =
              .ok (o, made) → DirectoryPlaced real p t.fs o made := by
          intro p t ht
          refine ⟨ht ▸ hconfined.keeps, ?_⟩
          rintro _ _ ⟨⟩
          exact directoryPlaced_failed (Outcome.not_inPlace_failed _ _)
        cases plan.options.stopOnFirstError with
        | false => exact hfailed _ s' rfl
        | true =>
          have hstop : Session.stop.IsTacit := ⟨trivial, fun _ => trivial⟩
          refine (Program.Obeys.bind hstop.obeys ?_)
          rintro ⟨⟩ ⟨⟩ t ⟨-, ht⟩
          exact hfailed _ t ht
    · obtain ⟨d, hd, hcreated⟩ := hstate state rfl
      cases state with
      | created =>
        refine ⟨hconfined.keeps, ?_⟩
        rintro _ _ ⟨⟩
        exact ⟨fun _ => ⟨d, hd, hcreated rfl⟩, fun _ => ⟨d, hd⟩⟩
      | existing =>
        refine ⟨hconfined.keeps, ?_⟩
        rintro _ _ ⟨⟩
        exact ⟨nofun, fun _ => ⟨d, hd⟩⟩

/-- What `P` says of the slots lasts through the passes over directories, where every call takes the file
    system to a `later` one: a directory entry that is dealt with has it, and so has one that is blocked. -/
structure RunPlan.Carries (plan : RunPlan) (may : FileCall → FileSystem → Prop)
    (later : FileSystem → FileSystem → Prop) (P : FileSystem → Slot → Prop) : Prop where
  refl : ∀ fs, later fs fs
  trans : ∀ {fs fs' fs''}, later fs fs' → later fs' fs'' → later fs fs''
  lasts : ∀ {fs fs' slot}, P fs slot → later fs fs' → P fs' slot
  place : ∀ {failures slot destination} {s : RunState}, P s.fs slot → slot.entry.isFile = false →
    slot.destination = some destination →
    (plan.placeDirectory failures destination slot.entry).Obeys ((Discipline.alone (I := Files) answer may).inSession hquiet)
      (fun result _ s' => later s.fs s'.fs ∧ ∀ o made, result = .ok (o, made) →
        P s'.fs ⟨slot.entry, some destination, some o, made⟩) () s
  block : ∀ {fs slot failures o}, P fs slot → slot.entry.isFile = true → slot.outcome = none →
    RunPlan.blocked? failures slot.entry = some o → P fs { slot with outcome := some o }

namespace RunPlan.Carries

variable {may : FileCall → FileSystem → Prop} {later : FileSystem → FileSystem → Prop}
  {P : FileSystem → Slot → Prop} (h : plan.Carries hquiet may later P)

include h

/-- With one slot settled, the pass goes on with the rest. -/
theorem keep {failures : RunPlan.Failures} {slot : Slot} {rest : List Slot} {t : RunState}
    (hlater : later s.fs t.fs) (hslot : P t.fs slot)
    (hrest : (plan.directoryPass failures rest).Obeys ((Discipline.alone (I := Files) answer may).inSession hquiet)
      (fun result _ s' => later t.fs s'.fs ∧ ∀ failures slots, result = .ok (failures, slots) →
        slots.map (·.entry) = rest.map (·.entry) ∧ ∀ slot ∈ slots, P s'.fs slot) () t) :
    (do return (← plan.directoryPass failures rest).map fun passed => (passed.1, slot :: passed.2) :
      Program Session (Except ExtractError (RunPlan.Failures × List Slot))).Obeys
      ((Discipline.alone (I := Files) answer may).inSession hquiet)
      (fun result _ s' => later s.fs s'.fs ∧ ∀ failures slots, result = .ok (failures, slots) →
        slots.map (·.entry) = slot.entry :: rest.map (·.entry) ∧ ∀ slot ∈ slots, P s'.fs slot) () t := by
  refine hrest.bind ?_
  rintro (err | ⟨failures', slots'⟩) ⟨⟩ t' ⟨hlater', hslots⟩
  · exact ⟨h.trans hlater hlater', nofun⟩
  · refine ⟨h.trans hlater hlater', ?_⟩
    rintro _ _ ⟨⟩
    obtain ⟨hentries, hall⟩ := hslots _ _ rfl
    exact ⟨by rw [List.map_cons, hentries], List.forall_mem_cons.2 ⟨h.lasts hslot hlater', hall⟩⟩

theorem directoryPass {failures : RunPlan.Failures} (hslots : ∀ slot ∈ slots, P s.fs slot) :
    (plan.directoryPass failures slots).Obeys ((Discipline.alone (I := Files) answer may).inSession hquiet)
      (fun result _ s' => later s.fs s'.fs ∧ ∀ failures slots', result = .ok (failures, slots') →
        slots'.map (·.entry) = slots.map (·.entry) ∧ ∀ slot ∈ slots', P s'.fs slot) () s := by
  induction slots generalizing failures s with
  | nil =>
    refine ⟨h.refl s.fs, ?_⟩
    rintro _ _ ⟨⟩
    exact ⟨rfl, hslots⟩
  | cons slot rest ih =>
    obtain ⟨hslot, hrest⟩ := List.forall_mem_cons.1 hslots
    have hlasts : ∀ t : RunState, later s.fs t.fs → ∀ slot ∈ rest, P t.fs slot :=
      fun _ hlater slot hmem => h.lasts (hrest slot hmem) hlater
    rw [RunPlan.directoryPass]
    show (if _ then _ else _ : Program Session _).Obeys _ _ _ _
    cases hfile : slot.entry.isFile with
    | true => exact h.keep hquiet (h.refl s.fs) hslot (ih (hlasts s (h.refl s.fs)))
    | false =>
      rw [if_neg Bool.false_ne_true]
      cases houtcome : slot.outcome with
      | some o => exact h.keep hquiet (h.refl s.fs) hslot (ih (hlasts s (h.refl s.fs)))
      | none =>
        refine (Program.Obeys.bind isTacit_isHalted.obeys ?_)
        rintro halted ⟨⟩ t ⟨-, ht⟩
        obtain ht : t.fs = s.fs := ht
        have hlater : later s.fs t.fs := ht ▸ h.refl s.fs
        cases halted with
        | true =>
          -- the rest is left as it is
          refine ⟨hlater, ?_⟩
          rintro _ _ ⟨⟩
          exact ⟨rfl, fun slot hmem => h.lasts (hslots slot hmem) hlater⟩
        | false =>
          cases hdestination : slot.destination with
          | none => exact h.keep hquiet hlater (h.lasts hslot hlater) (ih (hlasts t hlater))
          | some destination =>
            refine (h.place (h.lasts hslot hlater) hfile hdestination).bind ?_
            rintro (err | ⟨o, made⟩) ⟨⟩ u ⟨hlater', hplaced⟩
            · exact ⟨h.trans hlater hlater', nofun⟩
            · refine ((isTacit_entryDone plan _ _).obeys).bind ?_
              rintro ⟨⟩ ⟨⟩ v ⟨-, hv⟩
              obtain hv : v.fs = u.fs := hv
              have hall : later s.fs v.fs := hv ▸ h.trans hlater hlater'
              have hplaced : P v.fs ⟨slot.entry, some destination, some o, made⟩ := hv ▸ hplaced o made rfl
              exact h.keep hquiet hall hplaced (ih (hlasts v hall))

theorem blockFiles (failures : RunPlan.Failures) (hslots : ∀ slot ∈ slots, P s.fs slot) :
    (plan.blockFiles failures slots).Obeys ((Discipline.alone (I := Files) answer may).inSession hquiet)
      (fun slots' _ s' => s'.fs = s.fs ∧ slots'.map (·.entry) = slots.map (·.entry) ∧
        ∀ slot ∈ slots', P s'.fs slot) () s := by
  induction slots generalizing s with
  | nil => exact ⟨rfl, rfl, hslots⟩
  | cons slot rest ih =>
    obtain ⟨hslot, hrest⟩ := List.forall_mem_cons.1 hslots
    rw [RunPlan.blockFiles]
    cases hblocked : (if slot.entry.isFile && slot.outcome.isNone then
      RunPlan.blocked? failures slot.entry else none) with
    | none =>
      refine (ih hrest).bind ?_
      rintro slots' ⟨⟩ t ⟨ht, hentries, hall⟩
      exact ⟨ht, by rw [List.map_cons, List.map_cons, hentries], List.forall_mem_cons.2 ⟨ht ▸ hslot, hall⟩⟩
    | some o =>
      split at hblocked
      · next hopen =>
        rw [Bool.and_eq_true, Option.isNone_iff_eq_none] at hopen
        refine ((isTacit_entryDone plan _ _).obeys).bind ?_
        rintro ⟨⟩ ⟨⟩ t ⟨-, ht⟩
        obtain ht : t.fs = s.fs := ht
        refine (ih (ht ▸ hrest)).bind ?_
        rintro slots' ⟨⟩ u ⟨hu, hentries, hall⟩
        have hsame : u.fs = s.fs := hu.trans ht
        refine ⟨hsame, by rw [List.map_cons, List.map_cons, hentries], List.forall_mem_cons.2 ⟨?_, hall⟩⟩
        rw [hsame]
        exact h.block hslot hopen.1 hopen.2 hblocked
      · cases hblocked

/-- What holds of every slot still does after the passes over directories. -/
theorem directories (hslots : ∀ slot ∈ slots, P s.fs slot) :
    (plan.directories slots).Obeys ((Discipline.alone (I := Files) answer may).inSession hquiet)
      (fun result _ s' => later s.fs s'.fs ∧ ∀ slots', result = .ok slots' →
        slots'.map (·.entry) = slots.map (·.entry) ∧ ∀ slot ∈ slots', P s'.fs slot) () s := by
  refine (h.directoryPass hquiet hslots).bind ?_
  rintro (e | ⟨failures, slots'⟩) ⟨⟩ t ⟨hlater, hpassed⟩
  · exact ⟨hlater, nofun⟩
  · obtain ⟨hentries, hall⟩ := hpassed failures slots' rfl
    refine (h.blockFiles hquiet failures hall).bind ?_
    rintro slots'' ⟨⟩ u ⟨hsame, hentries', hall'⟩
    refine ⟨hsame ▸ hlater, ?_⟩
    rintro _ ⟨⟩
    exact ⟨hentries'.trans hentries, hall'⟩

end RunPlan.Carries

/-- A sound slot, which says of a file only that it failed. -/
structure Slot.Waits (plan : RunPlan) (names real : RealPath) (fs : FileSystem) (slot : Slot) : Prop where
  rooted : plan.Rooted names real fs
  sound : slot.Sound plan.root real fs
  waiting : slot.entry.isFile = true → ∀ o, slot.outcome = some o → ¬o.InPlace

/-- Sound slots stay sound through the passes over directories, and no file is put in place in them. -/
theorem carries_waits : plan.Carries hquiet (fun c fs => FileSystem.Confined names fs (fs.answer c).2) Keeps
    (Slot.Waits plan names real) where
  refl := .refl
  trans := .trans
  lasts h hkeeps := ⟨h.rooted.keeps hkeeps, h.sound.keeps hkeeps, h.waiting⟩
  place {failures slot destination s} h hfile hdestination := by
    have hsanitized := h.sound.destination destination hdestination
    refine (placeDirectory_obeys hquiet h.rooted hsanitized).imp ?_
    rintro result ⟨⟩ s' ⟨hkeeps, hplaced⟩
    refine ⟨hkeeps, ?_⟩
    intro o made hok
    refine ⟨h.rooted.keeps hkeeps, sound_placed hsanitized (hplaced o made hok), ?_⟩
    intro htrue
    exact absurd (hfile.symm.trans htrue) Bool.false_ne_true
  block h hfile _ hblocked := by
    have ho := not_inPlace_of_blocked? hblocked
    refine ⟨h.rooted, h.sound.fail ho, ?_⟩
    rintro - _ ⟨⟩
    exact ho

/-- The passes over directories leave sound slots. -/
theorem directories_obeys (hroot : plan.Rooted names real s.fs)
    (hready : Ready plan.root real s.fs entries slots) :
    (plan.directories slots).Obeys ((tidy names).inSession hquiet)
      (fun result _ s' => Keeps s.fs s'.fs ∧ ∀ slots', result = .ok slots' →
        Ready plan.root real s'.fs entries slots') () s := by
  have hwaits : ∀ slot ∈ slots, slot.Waits plan names real s.fs := fun slot hslot =>
    ⟨hroot, hready.sound slot hslot, hready.waiting slot hslot⟩
  refine ((carries_waits hquiet).directories hquiet hwaits).imp ?_
  rintro result ⟨⟩ s' ⟨hkeeps, hpassed⟩
  refine ⟨hkeeps, ?_⟩
  intro slots' hok
  obtain ⟨hentries, hall⟩ := hpassed slots' hok
  exact ⟨hentries.trans hready.entries, fun slot hslot => (hall slot hslot).sound,
    fun slot hslot => (hall slot hslot).waiting⟩

/-! ## Modes -/

/-- Every regular file is still there with its mode and its content. -/
def KeepsFiles (fs fs' : FileSystem) : Prop :=
  ∀ q mode content, fs.get? q = some (.file mode content) → fs'.get? q = some (.file mode content)

/-- A mode that is set at the destination of a directory hits that directory. -/
theorem applyMode_obeys {p : Path} {d : RealPath} (mode : UInt32) (hroot : fs.LeadsTo names.toPath real)
    (hd : fs.LeadsTo p d) (hcontains : real.Contains d) :
    (applyMode p mode).Obeys (tidy names) (fun _ _ fs' => KeepsFiles fs fs') () fs := by
  refine obeys_setMode (fun _ _ _ _ _ h => h) ?_
  intro fs' hset
  obtain ⟨q, x, hfind, rfl⟩ := setMode_eq_ok hset
  obtain ⟨hresolve, hget⟩ := find_eq_ok_iff.1 hfind
  obtain rfl : d = q := Except.ok.inj (hd.1.symm.trans hresolve)
  obtain ⟨m, hdir⟩ := isDirectoryAt_iff.1 hd.2
  refine ⟨confined_put_withMode hroot hcontains hget _, ?_⟩
  intro q' mode' content hfile
  have hne : q' ≠ d := by
    rintro rfl
    cases hfile.symm.trans hdir
  rw [get?_put_of_ne hne, hfile]

/-- The slot, or one that says that its entry failed. -/
def Slot.FailsOrIs (slot slot' : Slot) : Prop :=
  slot' = slot ∨ slot'.entry = slot.entry ∧ ∃ o, slot'.outcome = some o ∧ o.isFailure = true

theorem finishDirectory_obeys (slot : Slot) (hroot : s.fs.LeadsTo names.toPath real)
    (hmade : slot.MadeInside real s.fs) :
    (RunPlan.finishDirectory slot).Obeys ((tidy names).inSession hquiet)
      (fun slot' _ s' => Keeps s.fs s'.fs ∧ KeepsFiles s.fs s'.fs ∧ slot.FailsOrIs slot') () s := by
  have hsame : (Program.done slot : Program Session Slot).Obeys ((tidy names).inSession hquiet)
      (fun slot' _ s' => Keeps s.fs s'.fs ∧ KeepsFiles s.fs s'.fs ∧ slot.FailsOrIs slot') () s :=
    ⟨.refl s.fs, fun _ _ _ h => h, .inl rfl⟩
  rw [RunPlan.finishDirectory]
  split
  · next mode destination hslot _ hdestination =>
    obtain ⟨p, d, hp, hd, hcontains⟩ := hmade hslot
    obtain rfl := Option.some.inj (hdestination.symm.trans hp)
    refine (applyMode_obeys mode hroot hd hcontains).confined.onFiles.bind ?_
    rintro (e | ⟨⟩) ⟨⟩ s' ⟨hfiles, hconfined⟩
    · exact ⟨hconfined.keeps, hfiles, .inr ⟨rfl, _, rfl, rfl⟩⟩
    · exact ⟨hconfined.keeps, hfiles, .inl rfl⟩
  · exact hsame

/-- Finishing directories touches no file. -/
theorem finishDirectories_obeys (hroot : s.fs.LeadsTo names.toPath real)
    (hmade : ∀ slot ∈ slots, slot.MadeInside real s.fs) :
    (RunPlan.finishDirectories slots).Obeys ((tidy names).inSession hquiet)
      (fun slots' _ s' => Keeps s.fs s'.fs ∧ KeepsFiles s.fs s'.fs ∧
        List.Forall₂ Slot.FailsOrIs slots slots') () s := by
  induction slots with
  | nil => exact ⟨.refl s.fs, fun _ _ _ h => h, .nil⟩
  | cons slot rest ih =>
    obtain ⟨hhead, htail⟩ := List.forall_mem_cons.1 hmade
    refine (ih htail).bind ?_
    rintro rest' ⟨⟩ t ⟨hkeeps, hfiles, hrest⟩
    refine (finishDirectory_obeys hquiet slot (hkeeps.leadsTo hroot) (hhead.keeps hkeeps)).bind ?_
    rintro slot' ⟨⟩ u ⟨hkeeps', hfiles', hslot⟩
    exact ⟨hkeeps.trans hkeeps', fun q mode content h => hfiles' q mode content (hfiles q mode content h),
      .cons hslot hrest⟩

end Pass

end TreeImage
