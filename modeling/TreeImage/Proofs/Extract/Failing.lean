import TreeImage.Proofs.Extract.Encounters
import TreeImage.Proofs.Extract.Sanitizing

set_option autoImplicit false

/-! # What entries fail with

The errors that end the directory pass, or keep a file from its destination, are about one entry and what was found
where it should go (`ExtractError.isOfEntry`). Of these only an escape is a fault of a path. So a file
whose directory was confirmed fails for no path. Errors that refuse a whole run come from elsewhere, and so does an
abort. -/

namespace TreeImage

open FileSystem

variable {α β : Type} {inv : FileSystem → Prop} {sort sort' : ExtractError → Prop} {p : Path} {entry : String}
  {e : Entry} {err : ExtractError} {failures : RunPlan.Failures} {slots : List Slot} {plan : RunPlan}
  {options : ExtractOptions}

/-- The error is about one entry, and what was found where it should go. -/
def ExtractError.isOfEntry : ExtractError → Bool
  | escape _ _ => true
  | conflict _ _ => true
  | write _ _ => true
  | writeVerification _ _ _ => true
  | fs _ => true
  | _ => false

/-- The error tells that a run was broken off in its file pass. -/
def ExtractError.isAbort : ExtractError → Bool
  | aborted _ _ => true
  | _ => false

/-- If this is an error, it is one of these. -/
def FailsBy (sort : ExtractError → Prop) (result : Except ExtractError α) : Prop := ∀ e, result = .error e → sort e

theorem failsBy_ok (a : α) : FailsBy sort (.ok a) := fun _ h => nomatch h

theorem failsBy_error : FailsBy sort (.error err : Except ExtractError α) ↔ sort err :=
  ⟨fun h => h err rfl, fun h _ he => Except.error.inj he ▸ h⟩

theorem FailsBy.map {result : Except ExtractError α} (h : FailsBy sort result) (f : α → β) :
    FailsBy sort (result.map f) := by
  cases result with
  | error err => exact failsBy_error.2 (failsBy_error.1 h)
  | ok a => exact failsBy_ok (f a)

/-- Results that fail by errors of an entry. -/
abbrev FailsAsEntry (result : Except ExtractError α) : Prop := FailsBy (·.isOfEntry = true) result

/-! ## Directories -/

theorem confirmWithin_fails (realRoot : Path) :
    (confirmWithin realRoot p entry).Learns answer (fun _ => True) FailsAsEntry := by
  refine (Program.learns_true _).bind ?_
  rintro (refusal | real) -
  · exact failsBy_error.2 rfl
  · by_cases hin : real.isWithin realRoot = true
    · simp only [hin, if_true]
      exact failsBy_ok real
    · simp only [hin]
      exact failsBy_error.2 rfl

theorem confirmParent_fails (realRoot : Path) :
    (confirmParent realRoot p entry).Learns answer (fun _ => True) FailsAsEntry := by
  unfold confirmParent
  split
  · exact failsBy_ok ()
  · exact (confirmWithin_fails realRoot).bind fun _ h => h.map _

theorem createDirectory_fails (realRoot : Path) :
    (createDirectory realRoot p entry).Learns answer (fun _ => True) FailsAsEntry := by
  refine (confirmParent_fails realRoot).bind ?_
  rintro (err | ⟨⟩) hconfirmed
  · exact failsBy_error.2 (failsBy_error.1 hconfirmed)
  · refine (Program.learns_true _).bind ?_
    rintro (err | state) -
    · refine failsBy_error.2 ?_
      cases err <;> rfl
    · exact (confirmWithin_fails realRoot).bind fun _ h => h.map _

/-! ## Files -/

/-- Results that do not fail by the fault of a path. -/
abbrev KeepsToPath (result : Except ExtractError α) : Prop := FailsBy (·.isPathError = false) result

theorem existingDigest_keepsToPath : (existingDigest p).Learns answer inv KeepsToPath := by
  refine (Program.learns_true _).bind ?_
  rintro (refusal | info) -
  · cases refusal with
    | notFound => exact failsBy_ok none
    | _ => exact failsBy_error.2 rfl
  · cases hkind : info.kind with
    | file =>
      simp only [hkind]
      refine (Program.learns_true _).bind ?_
      rintro (refusal | content) -
      · exact failsBy_error.2 rfl
      · exact failsBy_ok _
    | _ =>
      simp only [hkind]
      exact failsBy_error.2 rfl

theorem writeVerified_keepsToPath {content : Bytes} {expected : Digest} {write : WriteOptions} :
    (writeVerified p content expected write).Learns answer inv KeepsToPath := by
  refine (Program.learns_true _).bind ?_
  rintro (refusal | staged) -
  · exact failsBy_error.2 rfl
  · refine (Program.learns_true _).bind ?_
    rintro (refusal | written) -
    · exact (Program.learns_true _).bind fun _ _ => failsBy_error.2 rfl
    · show (if _ then _ else _ : Program Files (Except ExtractError Unit)).Learns _ _ _
      split
      · exact (Program.learns_true _).bind fun _ _ => failsBy_error.2 rfl
      · refine (Program.learns_true _).bind ?_
        rintro (refusal | ⟨⟩) -
        · exact failsBy_error.2 rfl
        · exact failsBy_ok ()

/-- Once the directory of its destination is confirmed, a file entry fails for no path. -/
theorem writeFile_keepsToPath {content : Bytes} {realRoot : Path}
    (hconfirmed : (confirmParent realRoot p e.path).Learns answer inv (· = .ok ())) :
    (writeFile options realRoot p e content).Learns answer inv KeepsToPath := by
  refine hconfirmed.bind ?_
  rintro _ rfl
  refine existingDigest_keepsToPath.bind ?_
  rintro (err | _ | existing) hfound
  · exact failsBy_error.2 (failsBy_error.1 hfound)
  · exact writeVerified_keepsToPath.bind fun _ h => h.map _
  · cases hleave : options.overwrite.leave? (existing == e.digest) with
    | some o =>
      simp only [hleave]
      exact failsBy_ok o
    | none =>
      simp only [hleave]
      exact writeVerified_keepsToPath.bind fun _ h => h.map _

/-! ## The directory pass -/

theorem placeDirectory_fails :
    (plan.placeDirectory failures p e).Learns (RunState.handler options) (fun _ => True) FailsAsEntry := by
  unfold RunPlan.placeDirectory
  split
  · exact failsBy_ok _
  · refine (createDirectory_fails plan.realRoot).onFiles.bind ?_
    rintro (err | _ | _) hcreated
    · by_cases hends : (err.isPathError && plan.options.strict) = true
      · simp only [hends, if_true]
        exact failsBy_error.2 (failsBy_error.1 hcreated)
      · cases hstop : plan.options.stopOnFirstError with
        | true =>
          simp only [hends, if_true]
          exact fun _ _ => failsBy_ok _
        | false =>
          simp only [hends, Bool.false_eq_true, if_false]
          exact failsBy_ok _
    · exact failsBy_ok _
    · exact failsBy_ok _

theorem keep_fails {slot : Slot}
    (hrest : (plan.directoryPass failures slots).Learns (RunState.handler options) (fun _ => True) FailsAsEntry) :
    (do return (← plan.directoryPass failures slots).map fun (failures, slots) => (failures, slot :: slots) :
      Program Session (Except ExtractError (RunPlan.Failures × List Slot))).Learns (RunState.handler options)
      (fun _ => True) FailsAsEntry :=
  hrest.bind fun _ h => h.map _

theorem directoryPass_fails :
    (plan.directoryPass failures slots).Learns (RunState.handler options) (fun _ => True) FailsAsEntry := by
  induction slots generalizing failures with
  | nil => exact failsBy_ok _
  | cons slot rest ih =>
    rw [RunPlan.directoryPass]
    split
    · exact keep_fails ih
    · split
      · exact keep_fails ih
      · refine (Program.learns_true _).bind ?_
        rintro halted -
        cases halted with
        | true => exact failsBy_ok _
        | false =>
          simp only [Bool.false_eq_true, if_false]
          split
          · exact keep_fails ih
          · refine placeDirectory_fails.bind ?_
            rintro (err | ⟨o, made⟩) hplaced
            · exact failsBy_error.2 (failsBy_error.1 hplaced)
            · refine (Program.learns_true (plan.entryDone slot.entry.path 0)).bind fun _ _ => ?_
              exact keep_fails ih

/-! ## Before the passes -/

/-- Results that do not fail by an abort. -/
abbrev NeverAborts (result : Except ExtractError α) : Prop := FailsBy (·.isAbort = false) result

theorem slotsFor_never_aborts (root : Path) (strict : Bool) (entries : List Entry) :
    NeverAborts (slotsFor root strict entries) := by
  induction entries with
  | nil => exact failsBy_ok _
  | cons e rest ih =>
    rw [slotsFor]
    split
    · exact ih.map _
    · next herror =>
      split
      · obtain ⟨fault, rfl⟩ := sanitize_eq_error herror
        exact failsBy_error.2 rfl
      · exact ih.map _

theorem prepareRoot_never_aborts (root : Path) :
    (prepareRoot root).Learns answer (fun _ => True) NeverAborts := by
  have hsettle : (do return (← Files.realPath root).mapError (.target root) :
      Program Files (Except ExtractError Path)).Learns answer (fun _ => True) NeverAborts := by
    refine (Program.learns_true _).bind ?_
    rintro (refusal | real) -
    · exact failsBy_error.2 rfl
    · exact failsBy_ok _
  refine (Program.learns_true _).bind ?_
  rintro (refusal | info) -
  · cases refusal with
    | notFound =>
      refine (Program.learns_true _).bind ?_
      rintro (refusal | ⟨⟩) -
      · exact failsBy_error.2 rfl
      · exact hsettle
    | _ => exact failsBy_error.2 rfl
  · show Program.Learns _ _ _ (if info.isDirectory then _ else _)
    split
    · exact hsettle
    · exact failsBy_error.2 rfl

theorem resolveRoot_never_aborts (cwd executable : Path) (default : DefaultRoot) (target : Option Path) :
    NeverAborts (resolveRoot cwd executable default target) := by
  cases target with
  | none =>
    rw [resolveRoot]
    cases default with
    | currentDirectory => exact failsBy_ok _
    | executableDirectory =>
      rw [defaultRoot]
      split
      · exact failsBy_error.2 rfl
      · exact failsBy_ok _
  | some target =>
    rw [resolveRoot, absoluteRoot]
    split
    · exact failsBy_error.2 rfl
    · split
      · exact failsBy_error.2 rfl
      · exact failsBy_ok _

/-- Nothing is aborted that has not begun with its files. -/
theorem prepare_never_aborts {image : Image} (cwd executable : Path) (target : Option Path) :
    (prepare options cwd executable image target).Learns (RunState.handler options) (fun _ => True) NeverAborts := by
  refine (Program.learns_true _).bind fun cancelled _ => ?_
  split
  · exact failsBy_error.2 rfl
  · split
    · next hroot => exact failsBy_error.2 (resolveRoot_never_aborts cwd executable options.defaultRoot target _ hroot)
    · next root _ =>
      split
      · next hslots => exact failsBy_error.2 (slotsFor_never_aborts root options.strict _ _ hslots)
      · refine (prepareRoot_never_aborts root).onFiles.bind ?_
        rintro (err | real) hprepared
        · exact failsBy_error.2 (failsBy_error.1 hprepared)
        · exact failsBy_ok _

end TreeImage
