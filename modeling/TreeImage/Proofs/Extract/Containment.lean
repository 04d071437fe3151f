import TreeImage.Proofs.Extract.Run

set_option autoImplicit false

/-! # Containment

Whatever stands in the file system and whatever paths an image holds, a run changes nothing outside of the
target root: neither in the end nor for the time being. Links inside the root do not lead it out. -/

namespace TreeImage

open FileSystem

variable {options : ExtractOptions}

/-- **A run stays inside its target root.** A place that one of its calls changed, or that is not in the
    end what it was at the start, lies strictly inside the real root; or it is a directory on the way to
    the root, which was missing at the start and right until the call that made it. -/
theorem extract_contained (hquiet : options.IsQuiet) (hworkers : options.workers ≤ 1)
    (schedule : List Nat) (image : Image) (target : Option Path) (fs : FileSystem)
    {result : Except ExtractError Report} {s : RunState}
    (h : extract options schedule image target (.start fs options) = (result, s)) :
    s.fs.cwd = fs.cwd ∧ s.fs.executable = fs.executable ∧
    (∀ q, s.fs.get? q ≠ fs.get? q → ∃ names : RealPath,
      resolveRoot fs.cwd.toPath fs.executable options.defaultRoot target = .ok names.toPath ∧
      Touchable names fs s.fs q) ∧
    ∀ c fs', .call c fs' ∈ s.trace → ∀ q, (fs'.answer c).2.get? q ≠ fs'.get? q → ∃ names : RealPath,
      resolveRoot fs.cwd.toPath fs.executable options.defaultRoot target = .ok names.toPath ∧
      Touchable names fs s.fs q ∧ Touchable names fs' s.fs q := by
  have hone : 1 < options.workers → NamesApart ((image.manifest.select options.filter).filter (·.isFile)) :=
    fun hmany => absurd hmany (Nat.not_lt.2 hworkers)
  rcases extract_run hquiet schedule hone h with ⟨hfs, htrace, -⟩ | ⟨names, -, hroot, hconfined, -⟩
  · have hnone : s.trace = [] := htrace
    change s.fs = fs at hfs
    rw [hfs, hnone]
    exact ⟨rfl, rfl, fun _ hq => absurd rfl hq, fun _ _ hcall => absurd hcall List.not_mem_nil⟩
  · obtain ⟨⟨hkeeps, hagree⟩, events, htrace, hevents⟩ := hconfined
    change s.trace = [] ++ events at htrace
    rw [htrace, List.nil_append]
    refine ⟨hkeeps.cwd, hagree.executable, ?_, ?_⟩
    · intro q hq
      exact ⟨names, hroot, hagree.of_changed hq⟩
    · intro c fs' hcall q hq
      exact ⟨names, hroot, hevents c fs' hcall q hq⟩

/-! ## A link that leads out -/

/-- A root at `/srv` with a link in it to another directory. -/
def linkedOut : FileSystem where
  nodes := [([], .directory 0o755), ([utf8 "etc"], .directory 0o755), ([utf8 "srv"], .directory 0o755),
    ([utf8 "srv", utf8 "out"], .symlink (utf8 "/etc"))]
  cwd := []
  executable := .ofString "/bin/unpack"

/-- An image that has a directory where that link is, and a file in it. -/
def throughLink : Image where
  source := []
  manifest := ⟨[.directory "in" none, .directory "out" none, .file "out/f" 0 0 (.of []) none]⟩
  blobStart := 0
  blobLength := 0

/-- One worker, and unsafe entries are left out. -/
def lenient : ExtractOptions := { strict := false, workers := 1 }

theorem extract_contained_link_out :
    (lenient.IsQuiet ∧ lenient.workers ≤ 1) ∧
    let ended := extract lenient [] throughLink (some (.ofString "/srv")) (.start linkedOut lenient)
    ended.2.fs.get? [utf8 "srv", utf8 "in"] = some (.directory 0o755) ∧
    ∀ q, ended.2.fs.get? q ≠ linkedOut.get? q → ∃ names : RealPath,
      resolveRoot linkedOut.cwd.toPath linkedOut.executable lenient.defaultRoot (some (.ofString "/srv")) =
        .ok names.toPath ∧ Touchable names linkedOut ended.2.fs q := by
  have hquiet : lenient.IsQuiet := fun _ hlistener => nomatch hlistener
  have hworkers : lenient.workers ≤ 1 := by decide
  obtain ⟨-, -, hcontained, -⟩ :=
    extract_contained hquiet hworkers [] throughLink (some (.ofString "/srv")) linkedOut rfl
  exact ⟨⟨hquiet, hworkers⟩, by decide +kernel, hcontained⟩

end TreeImage
