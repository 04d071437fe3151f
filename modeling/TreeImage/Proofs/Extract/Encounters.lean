import TreeImage.Proofs.Extract.FilePass
import TreeImage.Proofs.Program.Learning

set_option autoImplicit false

/-! # What a file meets

The outcome of a file entry tells what was found at its destination (`Slot.Met`): a file that the policy
leaves, a file that it replaces, or nothing. Others may have changed the file system since, so the finding is one
about some file system on the way, of which an invariant is known. -/

namespace TreeImage

open FileSystem

variable {α : Type} {names real r : RealPath} {start : FileSystem} {inv : FileSystem → Prop} {slot : Slot}
  {pending : List Slot} {p : Path} {options : ExtractOptions} {o : Outcome} {entry : String} {content : Bytes}

section Looking

variable (hframe : ∀ fs, inv fs → SameFrame start fs)
include hframe

end Looking

/-! ## Jobs -/

section Jobs

variable {plan : RunPlan} {image : Image}

theorem Discipline.Maintains.inSession {κ : Type} {D : Discipline (I := Files) answer κ} (h : D.Maintains inv)
    (hquiet : options.IsQuiet) : (D.inSession hquiet).Maintains fun s => inv s.fs := by
  intro k k' c s hmay hfit hfit' hs
  by_cases hc : SessionCall.IsTacit c
  · rw [(RunState.handler_tacit hquiet hc s).1]
    exact hs
  · cases c with
    | file c => exact h k k' c s.fs hmay hfit hfit' hs
    | _ => exact absurd trivial hc

theorem Program.Learns.onFiles {prog : Program Files α} {told : α → Prop} (h : prog.Learns answer inv told) :
    (Session.onFiles prog).Learns (RunState.handler options) (fun s => inv s.fs) told := by
  induction prog with
  | done a => exact h
  | call c next ih => exact fun s hs => ih _ (h s.fs hs)

theorem fileFailed_learns (e : ExtractError) :
    (plan.fileFailed e).Learns (RunState.handler options) (fun s => inv s.fs) (· = .ofError e) := by
  unfold RunPlan.fileFailed
  split
  · exact fun _ _ _ _ => rfl
  · split
    · exact fun _ _ => rfl
    · rfl

end Jobs

end TreeImage
