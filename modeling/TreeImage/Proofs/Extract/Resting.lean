import TreeImage.Proofs.Extract.FileResults
import TreeImage.Proofs.Extract.FreshTarget
import TreeImage.Proofs.Extract.Growth
import TreeImage.Proofs.Extract.Run

set_option autoImplicit false

/-! # Runs that find everything in place

An entry is left alone if a directory stands at its destination, or a regular file that the policy does not
replace (`Entry.IsLeft`). A run that finds every entry so asks, counts and tells the caller, but it changes
nothing (`extract_resting`). -/

namespace TreeImage

open FileSystem

variable {α : Type} {names real d q : RealPath} {n : Name} {fs : FileSystem} {p root : Path} {entry : String}
  {options : ExtractOptions} {e : Entry} {o : Outcome} {content : Bytes}

/-! ## Entries that are left alone -/

/-- The outcome with which a run leaves the entry alone. -/
inductive Entry.IsLeft (options : ExtractOptions) (root : Path) (real : RealPath) (fs : FileSystem) (e : Entry) :
    Outcome → Prop
  | directory {p : Path} (hp : sanitize root e.path = .ok p) (hdir : e.isFile = false)
      (hstands : StandsInside real fs p e.name) : IsLeft options root real fs e .skippedUnchanged
  | file {p : Path} {d : RealPath} {mode : UInt32} {content : Bytes} {o : Outcome}
      (hp : sanitize root e.path = .ok p) (hfile : e.isFile = true) (hnames : fs.Names p d e.name)
      (hin : real <+: d) (hname : IsAcceptable e.name) (hget : fs.get? (d ++ [e.name]) = some (.file mode content))
      (hleave : options.overwrite.leave? (Digest.of content == e.digest) = some o) :
      IsLeft options root real fs e o

namespace Entry.IsLeft

theorem exists_destination (h : e.IsLeft options root real fs o) : ∃ p, sanitize root e.path = .ok p := by
  cases h with
  | directory hp => exact ⟨_, hp⟩
  | file hp => exact ⟨_, hp⟩

/-- What stands at the destination decides the outcome. -/
theorem unique {o' : Outcome} (h : e.IsLeft options root real fs o) (h' : e.IsLeft options root real fs o') :
    o = o' := by
  cases h with
  | directory hp hdir =>
    cases h' with
    | directory => rfl
    | file _ hfile => exact absurd (hdir.symm.trans hfile) Bool.false_ne_true
  | file hp hfile hnames hin hname hget hleave =>
    cases h' with
    | directory _ hdir => exact absurd (hdir.symm.trans hfile) Bool.false_ne_true
    | file hp' _ hnames' _ _ hget' hleave' =>
      cases hp.symm.trans hp'
      rw [(hnames.unique hnames').1] at hget'
      cases hget.symm.trans hget'
      exact Option.some.inj (hleave.symm.trans hleave')

end Entry.IsLeft

/-- Nothing has stopped the run so far, and it has changed and written nothing. -/
structure RunState.AtRest (fs : FileSystem) (s : RunState) : Prop where
  fs : s.fs = fs
  calm : s.IsCalm
  bytes : s.bytesWritten = 0

section Resting

variable {s s' : RunState}

variable (hquiet : options.IsQuiet) (hnever : options.NeverCancels)
include hquiet hnever

/-- A call that looks at the run, or counts no bytes, keeps it at rest. -/
theorem RunState.AtRest.call {c : SessionCall} (hc : c.IsIdle) (hbytes : ∀ k, c = .countBytes k → k = 0)
    (h : s.AtRest fs) : (handler options c s).2.AtRest fs := by
  obtain ⟨hfs, hcalm⟩ := handler_idle hquiet hnever hc h.calm
  refine ⟨hfs.trans h.fs, hcalm, ?_⟩
  cases c with
  | isCancelled =>
    show (s.lookAtToken options.cancelToken).2.bytesWritten = 0
    cases options.cancelToken <;> exact h.bytes
  | announce progress =>
    show (s.tell progress options.onProgress).bytesWritten = 0
    cases options.onProgress <;> exact h.bytes
  | countBytes k =>
    obtain rfl := hbytes k rfl
    exact h.bytes
  | isStopped => exact h.bytes
  | countEntry => exact h.bytes
  | _ => exact hc.elim

/-- The slot is open, and its entry will be left alone. -/
structure Slot.Rests (options : ExtractOptions) (root : Path) (real : RealPath) (fs : FileSystem) (slot : Slot) : Prop where
  outcome : slot.outcome = none
  made : slot.made = false
  destination : ∀ p, sanitize root slot.entry.path = .ok p → slot.destination = some p
  left : ∃ o, slot.entry.IsLeft options root real fs o

omit hquiet hnever in
theorem Slot.Rests.isPending {slot : Slot} (h : slot.Rests options root real fs) :
    slot.isPending = slot.entry.isFile := by
  obtain ⟨o, hleft⟩ := h.left
  obtain ⟨p, hp⟩ := hleft.exists_destination
  simp [Slot.isPending, h.outcome, h.destination p hp]

/-- The slot behind the passes over directories. -/
def Slot.passed (slot : Slot) : Slot :=
  if slot.entry.isFile then slot else { slot with outcome := some .skippedUnchanged }

variable {plan : RunPlan} {image : Image} {slot : Slot} {slots pending : List Slot}

end Resting

end TreeImage
