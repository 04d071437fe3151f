import Mathlib.Logic.Function.Basic
import TreeImage.Proofs.FileSystem.Answers
import TreeImage.Proofs.Program.Foretelling

set_option autoImplicit false

/-! # Places that are held

A program that puts files in place can be told exactly what it will do if it holds the places that it
works at: it knows what stands there, and nobody else changes it. `holding` is the discipline of programs
that hold places; all but regular files is a frame that none of them touches. -/

namespace TreeImage

open FileSystem

variable {α : Type} {start fs fs' : FileSystem} {within : RealPath → Prop} {q t d : RealPath}
  {v : Option Node} {n : Name}

/-- The places that a program holds, and what stands there. -/
abbrev Holding := RealPath → Option (Option Node)

namespace Holding

variable {k k' l : Holding}

/-- The program holds the place. -/
def Holds (k : Holding) (q : RealPath) : Prop := (k q).isSome

/-- With something else at a place that is held. -/
def set (k : Holding) (q : RealPath) (v : Option Node) : Holding := Function.update k q (some v)

/-- All places, with what stands there. -/
def all (fs : FileSystem) : Holding := fun q => some (fs.get? q)

@[simp] theorem set_self (k : Holding) (q : RealPath) (v : Option Node) : k.set q v q = some v :=
  Function.update_self ..

theorem set_of_ne {q' : RealPath} (h : q' ≠ q) (k : Holding) (v : Option Node) : k.set q v q' = k q' :=
  Function.update_of_ne h ..

@[simp] theorem set_set (k : Holding) (q : RealPath) (v v' : Option Node) :
    (k.set q v).set q v' = k.set q v' := Function.update_idem ..

theorem set_eq_self (h : k q = some v) : k.set q v = k := by
  rw [set, ← h, Function.update_eq_self]

theorem Holds.set (h : k.Holds q) (t : RealPath) (v : Option Node) : (k.set t v).Holds q := by
  by_cases hne : q = t
  · rw [Holds, hne, set_self]
    rfl
  · rwa [Holds, set_of_ne hne]

theorem Holds.of_set {q' : RealPath} (hq : k.Holds q) (h : (k.set q v).Holds q') : k.Holds q' := by
  by_cases hne : q' = q
  · exact hne ▸ hq
  · rwa [Holds, set_of_ne hne] at h

/-- The state is what the program knows of it; nothing but regular files changed since the start. -/
structure Fits (start : FileSystem) (within : RealPath → Prop) (k : Holding) (fs : FileSystem) : Prop where
  frame : SameFrame start fs
  known : ∀ q v, k q = some v → fs.get? q = v
  within : ∀ q, k.Holds q → within q

/-- What is changed is held, and no more is held afterwards. -/
structure Move (k k' : Holding) (fs fs' : FileSystem) : Prop where
  changed : ∀ q, fs'.get? q ≠ fs.get? q → k.Holds q
  held : ∀ q, k'.Holds q → k.Holds q

/-- No place is held by both. -/
def Apart (k l : Holding) : Prop := ∀ q, ¬(k.Holds q ∧ l.Holds q)

theorem Move.spares (hmove : Move k k' fs fs') (hfit' : k'.Fits start within fs')
    (hother : l.Fits start within fs) (hapart : Apart k l) :
    l.Fits start within fs' ∧ Apart k' l := by
  refine ⟨⟨hfit'.frame, ?_, hother.within⟩, fun q hq => hapart q ⟨hmove.held q hq.1, hq.2⟩⟩
  intro q v hv
  rw [← hother.known q v hv]
  by_contra hne
  exact hapart q ⟨hmove.changed q hne, Option.isSome_iff_exists.2 ⟨v, hv⟩⟩

end Holding

/-- The discipline of programs that hold places, all of them among those that `within` admits. -/
def holding (start : FileSystem) (within : RealPath → Prop) :
    Discipline (I := Files) FileSystem.answer Holding where
  fit := Holding.Fits start within
  rely _ _ _ := True
  may k k' c fs := Holding.Move k k' fs (fs.answer c).2
  apart := Holding.Apart
  rely_refl _ _ := trivial
  rely_trans _ _ := trivial
  apart_symm h q hq := h q ⟨hq.2, hq.1⟩
  spares hmove _ hfit' hother hapart := ⟨trivial, hmove.spares hfit' hother hapart⟩

/-! ## Changes at places that are held -/

namespace Holding

variable {k : Holding}

theorem move_refl (k : Holding) (fs : FileSystem) : Move k k fs fs :=
  ⟨fun _ hq => absurd rfl hq, fun _ hq => hq⟩

theorem fits_all (fs : FileSystem) : (all fs).Fits fs (fun _ => True) fs :=
  ⟨.refl fs, fun _ _ hv => Option.some.inj hv, fun _ _ => trivial⟩

theorem Fits.holds (_ : k.Fits start within fs) (hq : k q = some v) : k.Holds q :=
  Option.isSome_iff_exists.2 ⟨v, hq⟩

/-- What stands at a place that is held is known. -/
theorem Fits.eq_get? (hfit : k.Fits start within fs) (hq : k.Holds q) : k q = some (fs.get? q) := by
  obtain ⟨v, hv⟩ := Option.isSome_iff_exists.1 hq
  rw [hv, hfit.known q v hv]

/-- One place changes. -/
theorem Fits.set (hfit : k.Fits start within fs) (hq : k.Holds q) (hframe : SameFrame fs fs')
    (hget : fs'.get? q = v) (hother : ∀ q', q' ≠ q → fs'.get? q' = fs.get? q') :
    (k.set q v).Fits start within fs' ∧ Move k (k.set q v) fs fs' := by
  refine ⟨⟨hfit.frame.trans hframe, ?_, fun q' hq' => hfit.within q' (hq.of_set hq')⟩, ?_,
    fun _ => hq.of_set⟩
  · intro q' v' hv'
    by_cases hne : q' = q
    · subst hne
      rw [set_self, Option.some.injEq] at hv'
      rw [hget, hv']
    · rw [set_of_ne hne] at hv'
      rw [hother q' hne, hfit.known q' v' hv']
  · intro q' hne
    by_contra hnot
    refine hne (hother q' ?_)
    rintro rfl
    exact hnot hq

theorem Fits.put_file (hfit : k.Fits start within fs) (hq : k.Holds q) (hframe : fs.frame q = none)
    (mode : UInt32) (content : Bytes) :
    (k.set q (some (.file mode content))).Fits start within (fs.put q (.file mode content)) ∧
      Move k (k.set q (some (.file mode content))) fs (fs.put q (.file mode content)) :=
  hfit.set hq (sameFrame_put_file hframe mode content) (get?_put_self ..) fun _ hne => get?_put_of_ne hne _

theorem Fits.erase (hfit : k.Fits start within fs) (hq : k.Holds q) (hframe : fs.frame q = none) :
    (k.set q none).Fits start within (fs.erase q) ∧ Move k (k.set q none) fs (fs.erase q) :=
  hfit.set hq (sameFrame_erase hframe) (by rw [get?_erase, if_pos rfl]) fun _ hne => get?_erase_of_ne hne

/-- A regular file goes from one place that is held to another. -/
theorem Fits.move_file {mode : UInt32} {content : Bytes} (hfit : k.Fits start within fs)
    (ht : k.Holds t) (hq : k.Holds q) (htframe : fs.frame t = none) (hqframe : fs.frame q = none) :
    ((k.set t none).set q (some (.file mode content))).Fits start within
        ((fs.erase t).put q (.file mode content)) ∧
      Move k ((k.set t none).set q (some (.file mode content))) fs
        ((fs.erase t).put q (.file mode content)) := by
  obtain ⟨hfit₁, hmove₁⟩ := hfit.erase ht htframe
  have hframe₁ : (fs.erase t).frame q = none := by
    rw [frame_erase, hqframe]
    exact ite_self none
  obtain ⟨hfit₂, hmove₂⟩ := hfit₁.put_file (hq.set t none) hframe₁ mode content
  refine ⟨hfit₂, ?_, fun q' hq' => hmove₁.held q' (hmove₂.held q' hq')⟩
  intro q' hne
  by_cases hsame : ((fs.erase t).put q (.file mode content)).get? q' = (fs.erase t).get? q'
  · exact hmove₁.changed q' (hsame ▸ hne)
  · exact hmove₁.held q' (hmove₂.changed q' hsame)

/-! ## Rules for calls -/

variable {post : α → Holding → Prop}

/-- A call that changes the state in a known way, with a known reply. -/
theorem holding_change {c : FileCall} {next : FileCall.Reply c → Program Files α} (reply : FileCall.Reply c)
    (k' : Holding)
    (hcall : ∀ fs, k.Fits start within fs →
      ∃ fs', fs.answer c = (reply, fs') ∧ k'.Fits start within fs' ∧ Move k k' fs fs')
    (hnext : (next reply).Foretold (holding start within) post k') :
    (Program.call (I := Files) c next).Foretold (holding start within) post k := by
  refine Program.foretold_call (I := Files) (c := c) reply k' ?_ hnext
  intro fs hfit
  obtain ⟨fs', hanswer, hfit', hmove⟩ := hcall fs hfit
  show (fs.answer c).1 = reply ∧ Move k k' fs (fs.answer c).2 ∧ k'.Fits start within (fs.answer c).2
  rw [hanswer]
  exact ⟨rfl, hmove, hfit'⟩

/-- A call that changes nothing, with a known reply. -/
theorem holding_ask {c : FileCall} {next : FileCall.Reply c → Program Files α} (reply : FileCall.Reply c)
    (hanswer : ∀ fs, k.Fits start within fs → fs.answer c = (reply, fs))
    (hnext : (next reply).Foretold (holding start within) post k) :
    (Program.call (I := Files) c next).Foretold (holding start within) post k :=
  holding_change reply k (fun fs hfit => ⟨fs, hanswer fs hfit, hfit, move_refl k fs⟩) hnext

end Holding

end TreeImage
