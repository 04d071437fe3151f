import TreeImage.Extract.Write
import TreeImage.Proofs.FileSystem.Effects
import TreeImage.Proofs.Program.Discipline

set_option autoImplicit false

/-! # Confirmed places

`confirmWithin` and `confirmParent` only ask, so every discipline that lets programs ask lets them run.
What they confirm is the case in the state that they asked last. -/

namespace TreeImage

open FileSystem

variable {α κ : Type} {D : Discipline (I := Files) FileSystem.answer κ} {real r : RealPath} {n : Name}
  {k : κ} {fs : FileSystem} {p : Path} {post : α → κ → FileSystem → Prop} {entry : String}
  (hask : D.LetsAsk)

include hask

theorem ask_realPath {f : Except Refusal Path → Program Files α}
    (h : ∀ fs', D.rely k fs fs' → D.fit k fs' → (f (fs'.realPath p)).Obeys D post k fs') :
    (Files.realPath p >>= f).Obeys D post k fs :=
  Program.Obeys.ask hask (fun _ => rfl) h

theorem ask_inspectLink {f : Except Refusal NodeInfo → Program Files α}
    (h : ∀ fs', D.rely k fs fs' → D.fit k fs' → (f (fs'.inspect false p)).Obeys D post k fs') :
    (Files.inspectLink p >>= f).Obeys D post k fs :=
  Program.Obeys.ask hask (fun _ => rfl) h

theorem ask_inspect {f : Except Refusal NodeInfo → Program Files α}
    (h : ∀ fs', D.rely k fs fs' → D.fit k fs' → (f (fs'.inspect true p)).Obeys D post k fs') :
    (Files.inspect p >>= f).Obeys D post k fs :=
  Program.Obeys.ask hask (fun _ => rfl) h

theorem ask_read {f : Except Refusal Bytes → Program Files α}
    (h : ∀ fs', D.rely k fs fs' → D.fit k fs' → (f (fs'.read p)).Obeys D post k fs') :
    (Files.read p >>= f).Obeys D post k fs :=
  Program.Obeys.ask hask (fun _ => rfl) h

theorem ask_isDirectory {f : Bool → Program Files α}
    (h : ∀ fs', D.rely k fs fs' → D.fit k fs' → (f (fs'.isDirectory p)).Obeys D post k fs') :
    (Files.isDirectory p >>= f).Obeys D post k fs := by
  refine Program.Obeys.ask (I := Files) (c := FileCall.inspect true p) hask (fun _ => rfl) ?_
  intro fs' hrely hfit
  have hnext := h fs' hrely hfit
  have hreply : (answer (.inspect true p) fs').1 = fs'.inspect true p := rfl
  unfold isDirectory at hnext
  rw [hreply]
  cases hinspect : fs'.inspect true p <;> rw [hinspect] at hnext <;> exact hnext

/-- A place is confirmed only if it lies inside the real root. -/
theorem confirmWithin_obeys (hreal : real.IsProper) (hr : r.IsProper) :
    (confirmWithin real.toPath r.toPath entry).Obeys D
      (fun result k' fs' => k' = k ∧ D.rely k fs fs' ∧ D.fit k fs' ∧ ∀ p, result = .ok p →
        ∃ q, fs'.resolve true r.toPath = .ok q ∧ real <+: q) k fs := by
  refine ask_realPath hask ?_
  intro fs' hrely hfit
  cases hfound : fs'.realPath r.toPath with
  | error e =>
    refine ⟨rfl, hrely, hfit, ?_⟩
    rintro _ ⟨⟩
  | ok p =>
    obtain ⟨q, hresolve, rfl⟩ := realPath_eq_ok hfound
    show Program.Obeys _ _ (if q.toPath.isWithin real.toPath then _ else _) _ _
    split
    · next hwithin =>
      refine ⟨rfl, hrely, hfit, ?_⟩
      intro _ _
      have hproper := isProper_of_resolve hr hresolve
      exact ⟨q, hresolve, (RealPath.isWithin_toPath hreal hproper).1 hwithin⟩
    · refine ⟨rfl, hrely, hfit, ?_⟩
      rintro _ ⟨⟩

/-- The directory of a destination is confirmed only if it lies inside the real root. -/
theorem confirmParent_obeys (hreal : real.IsProper) (hproper : RealPath.IsProper (r ++ [n])) :
    (confirmParent real.toPath (RealPath.toPath (r ++ [n])) entry).Obeys D
      (fun result k' fs' => k' = k ∧ D.rely k fs fs' ∧ D.fit k fs' ∧ (result = .ok () →
        ∃ q, fs'.resolve true r.toPath = .ok q ∧ real <+: q)) k fs := by
  rw [confirmParent, RealPath.parent?_toPath hproper]
  refine (confirmWithin_obeys hask hreal (RealPath.isProper_append.1 hproper).1).bind ?_
  rintro (e | p) _ fs' ⟨rfl, hrely, hfit, hok⟩
  · refine ⟨rfl, hrely, hfit, ?_⟩
    rintro ⟨⟩
  · refine ⟨rfl, hrely, hfit, ?_⟩
    intro _
    exact hok p rfl

omit hask

/-- The discipline of a program that is alone and only asks. -/
abbrev asking : Discipline (I := Files) FileSystem.answer Unit :=
  .alone _ fun c fs => (fs.answer c).2 = fs

theorem letsAsk_asking : asking.LetsAsk := fun _ _ _ hstill => hstill

end TreeImage
