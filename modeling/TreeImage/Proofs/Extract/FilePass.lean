import TreeImage.Extract.Run
import TreeImage.Proofs.Extract.Files

set_option autoImplicit false

/-! # The file pass on the pool

The jobs of the file pass share the file system under its discipline. Whatever the schedule, a job that
reports its entry in place has settled a place for it, which is settled when the pool is done. -/

namespace TreeImage

open FileSystem

variable {names real : RealPath} {start : FileSystem} {pending : List Slot} {slot : Slot} {k l : FileClaim}
  {plan : RunPlan} {image : Image} {options : ExtractOptions} (hquiet : options.IsQuiet) {s : RunState}

/-! ## Jobs -/

theorem Slot.Done.later (h : slot.Done start k) (hrests : k.Rests l) : slot.Done start l := by
  obtain ⟨q, haims, hq⟩ := h
  exact ⟨q, haims, hrests.settled q hq⟩

/-- A file that failed is not in place. -/
theorem fileFailed_obeys (plan : RunPlan) (e : ExtractError) :
    (plan.fileFailed e).Obeys ((filing real start pending).inSession hquiet)
      (fun o k' _ => k' = k ∧ ¬o.InPlace) k s := by
  have hstop : Session.stop.IsTacit := ⟨trivial, fun _ => trivial⟩
  have hraise : (Session.raise e).IsTacit := ⟨trivial, fun _ => trivial⟩
  have hfailed : ¬(Outcome.ofError e).InPlace := Outcome.not_inPlace_failed _ _
  rw [RunPlan.fileFailed]
  split
  · refine Program.Obeys.bind hstop.obeys ?_
    rintro ⟨⟩ _ t ⟨rfl, -⟩
    refine Program.Obeys.bind hraise.obeys ?_
    rintro ⟨⟩ _ u ⟨rfl, -⟩
    exact ⟨rfl, hfailed⟩
  · split
    · refine Program.Obeys.bind hstop.obeys ?_
      rintro ⟨⟩ _ t ⟨rfl, -⟩
      exact ⟨rfl, hfailed⟩
    · exact ⟨rfl, hfailed⟩

theorem placeFile_obeys {destination : Path} (hslot : slot ∈ pending)
    (hdestination : slot.destination = some destination) (hspelled : slot.IsSpelled destination)
    (hreal : real.IsProper) (hplan : plan.realRoot = real.toPath) (hidle : k.temporary = none) :
    (plan.placeFile image destination slot.entry).Obeys ((filing real start pending).inSession hquiet)
      (fun o k' _ => k.Rests k' ∧ (o.InPlace → slot.Done start k')) k s := by
  have hend : ∀ {o : Outcome} {k' : FileClaim} {t : RunState}, k.Rests k' →
      (o.InPlace → slot.Done start k') →
      (do
        plan.entryDone slot.entry.path (if o.isWritten then (image.content slot.entry).length else 0)
        return o : Program Session Outcome).Obeys ((filing real start pending).inSession hquiet)
        (fun o k' _ => k.Rests k' ∧ (o.InPlace → slot.Done start k')) k' t := by
    intro o k' t hrests hdone
    refine ((isTacit_entryDone plan _ _).obeys).bind ?_
    rintro ⟨⟩ _ u ⟨rfl, -⟩
    exact ⟨hrests, hdone⟩
  rw [RunPlan.placeFile, hplan]
  refine (writeFile_filing hslot hdestination hspelled hreal hidle).onFiles.bind ?_
  rintro (e | o) k' t ⟨hrests, hdone⟩
  · refine (fileFailed_obeys hquiet plan e).bind ?_
    rintro o _ u ⟨rfl, hfailed⟩
    exact hend hrests fun ho => absurd ho hfailed
  · exact hend hrests (hdone o rfl)

/-- If the job with this index reports its entry in place, it is. -/
def Achieved (start : FileSystem) (pending : List Slot) (i : Nat) (o : Outcome) (k : FileClaim) : Prop :=
  o.InPlace → ∃ slot, pending[i]? = some slot ∧ slot.Done start k

theorem Achieved.later {i : Nat} {o : Outcome} (h : Achieved start pending i o k) (hrests : k.Rests l) :
    Achieved start pending i o l := by
  intro ho
  obtain ⟨slot, hslot, hdone⟩ := h ho
  exact ⟨slot, hslot, hdone.later hrests⟩

/-- What the pool needs of the jobs of the file pass. -/
theorem workable_fileJob (image : Image) (hroot : plan.Rooted names real start)
    (hsound : ∀ slot ∈ pending, ∀ p, slot.destination = some p →
      sanitize plan.root slot.entry.path = .ok p) :
    Workable ((filing real start pending).inSession hquiet) Session.isHalted
      (plan.fileJob image pending) (fun k => k.temporary = none) (Achieved start pending) := by
  constructor
  · intro k s _
    exact isTacit_isHalted.obeys.imp fun _ _ _ h => h.1
  · intro i k s hidle
    rw [RunPlan.fileJob]
    split
    · next e destination outcome made hget =>
      have hslot := List.mem_of_getElem? hget
      have hspelled := exists_destination_eq hroot.properNames (hroot.root ▸ hsound _ hslot destination rfl)
      refine (placeFile_obeys hquiet hslot rfl hspelled hroot.properReal hroot.realRoot hidle).imp ?_
      rintro o k' _ ⟨hrests, hdone⟩
      exact ⟨hrests.temporary, fun ho => ⟨_, hget, hdone ho⟩, fun _ _ h => h.later hrests⟩
    · -- there is no such slot, and the job does nothing
      refine ⟨hidle, ?_, fun _ _ h => h⟩
      rintro (ho | ho | ho) <;> cases ho

/-! ## The pass -/

include hquiet in
/-- **What the file pass leaves behind.** Apart from regular files inside the real root nothing changed,
    and the place of every entry that is reported in place holds what some pending entry wants there. -/
theorem files_settled (schedule : List Nat) (hplan : plan.options = options)
    (hroot : plan.Rooted names real s.fs)
    (hsound : ∀ slot ∈ pending, ∀ p, slot.destination = some p →
      sanitize plan.root slot.entry.path = .ok p)
    (hapart : 1 < options.workers → NamesApart (pending.map (·.entry)))
    {results : List (Option Outcome)} {s' : RunState}
    (h : plan.files schedule image pending s = (results, s')) :
    SameFrame s.fs s'.fs ∧ s.Confined names s' ∧ results.length = pending.length ∧
      ∀ (i : Nat) (o : Outcome), results[i]? = some (some o) → o.InPlace →
        ∃ (slot : Slot) (q : RealPath), pending[i]? = some slot ∧ slot.Aims s.fs q ∧
          Settled s.fs pending s'.fs q := by
  subst hplan
  have hfits : ((filing real s.fs pending).inSession hquiet).fit .initial s :=
    FileClaim.fits_initial real s.fs pending
  have hwork := workable_fileJob hquiet image hroot hsound
  have hpool := runBounded_obeys hwork schedule pending.length plan.options.workers rfl hfits
    fun hmany => ⟨hapart hmany, nofun⟩
  rw [RunPlan.files] at h
  rw [h] at hpool
  obtain ⟨hlength, hreach, hresults⟩ := hpool
  refine ⟨?_, ?_, hlength, ?_⟩
  -- every state after a call fits some claim, and claims keep the frame
  · rcases Relation.ReflTransGen.cases_tail hreach with hsame | ⟨t, -, k, k', c, -, -, hfit, rfl⟩
    · exact hsame ▸ .refl s.fs
    · exact hfit.frame
  · refine RunState.confined_of_reach hquiet ?_ hreach
    intro k k' c fs hmay hfit hfit'
    exact confined_of_move hroot.leads hmay hfit hfit'
  · intro i o hi ho
    obtain ⟨k, hin, hfit⟩ := hresults i o hi
    obtain ⟨slot, hslot, q, haims, hq⟩ := hin ho
    exact ⟨slot, q, hslot, haims, hfit.settled q hq⟩

end TreeImage
