import TreeImage.Proofs.Extract.Session
import TreeImage.Proofs.FileSystem.Effects

set_option autoImplicit false

/-! # Where a run may leave its traces

`Touchable` names the places that a run below a target root may change: all that lies inside the real
root, and directories that were missing on the way to it. `Confined` says of two file systems, and of two
states of a run, that nothing else changed from one to the other, and that the ways that paths lead are
still the same. It holds of a run if it holds of its single calls. -/

namespace TreeImage

/-- The place lies strictly below the other. -/
def RealPath.Contains (r q : RealPath) : Prop := r <+: q ∧ r ≠ q

theorem RealPath.Contains.append {r d : RealPath} (h : r <+: d) (n : Name) : r.Contains (d ++ [n]) := by
  refine ⟨h.trans (List.prefix_append d [n]), ?_⟩
  rintro rfl
  have hlength := h.length_le
  rw [List.length_append, List.length_singleton] at hlength
  omega

namespace FileSystem

variable {names : RealPath} {fs fs' fs'' : FileSystem} {q r : RealPath} {x : Node} {c : FileCall}

/-! ## File systems -/

/-- What a run below the root `names` may change on the way from one file system to the other: what is
    inside the real root, and directories on the way to it that were missing. -/
def Touchable (names : RealPath) (fs fs' : FileSystem) (q : RealPath) : Prop :=
  (∃ real, fs'.LeadsTo names.toPath real ∧ real.Contains q) ∨
    (fs.get? q = none ∧ ∃ n, fs'.LeadsTo (RealPath.toPath (names.take n)) q)

/-- Directories and links stay, and only touchable places change. -/
structure Confined (names : RealPath) (fs fs' : FileSystem) : Prop where
  keeps : Keeps fs fs'
  agree : AgreeOutside (Touchable names fs fs') fs fs'

theorem Confined.refl (names : RealPath) (fs : FileSystem) : Confined names fs fs :=
  ⟨.refl fs, .refl _ fs⟩

theorem Touchable.later (h : Touchable names fs fs' q) (hkeeps : Keeps fs' fs'') :
    Touchable names fs fs'' q := by
  rcases h with ⟨real, hreal, hq⟩ | ⟨hnone, n, hq⟩
  · exact .inl ⟨real, hkeeps.leadsTo hreal, hq⟩
  · exact .inr ⟨hnone, n, hkeeps.leadsTo hq⟩

theorem Touchable.earlier (h : Touchable names fs' fs'' q) (hbefore : Confined names fs fs')
    (hkeeps : Keeps fs' fs'') : Touchable names fs fs'' q := by
  rcases h with hinside | ⟨hnone, n, hq⟩
  · exact .inl hinside
  · -- what was missing in between was missing before, or is inside
    by_cases hsame : fs'.get? q = fs.get? q
    · exact .inr ⟨hsame.symm.trans hnone, n, hq⟩
    · exact (hbefore.agree.of_changed hsame).later hkeeps

theorem Confined.trans (h : Confined names fs fs') (h' : Confined names fs' fs'') :
    Confined names fs fs'' :=
  ⟨h.keeps.trans h'.keeps,
    (h.agree.imp fun _ hq => hq.later h'.keeps).trans (h'.agree.imp fun _ hq => hq.earlier h h'.keeps)⟩

/-! ## Single calls -/

/-- A change inside the real root. -/
theorem confined_of_contains (hkeeps : Keeps fs fs') (hroot : fs.LeadsTo names.toPath r)
    (hagree : AgreeOutside r.Contains fs fs') : Confined names fs fs' :=
  ⟨hkeeps, hagree.imp fun _ hq => .inl ⟨r, hkeeps.leadsTo hroot, hq⟩⟩

theorem confined_put_new (hroot : fs.LeadsTo names.toPath r) (hq : r.Contains q)
    (hnone : fs.get? q = none) (x : Node) : Confined names fs (fs.put q x) :=
  confined_of_contains (keeps_put_new hnone x) hroot
    ((agreeOutside_put fs q x).imp fun _ h => h ▸ hq)

theorem confined_put_withMode (hroot : fs.LeadsTo names.toPath r) (hq : r.Contains q)
    (hget : fs.get? q = some x) (mode : UInt32) : Confined names fs (fs.put q (x.withMode mode)) :=
  confined_of_contains (keeps_put_withMode hget mode) hroot
    ((agreeOutside_put fs q _).imp fun _ h => h ▸ hq)

end FileSystem

/-! ## Runs -/

open FileSystem

variable {κ : Type} {names : RealPath} {s s' s'' : RunState} {options : ExtractOptions} {c : SessionCall}

/-- From one state of a run to the other, calls changed nothing but touchable places, not even for the
    time being. A directory on the way to the root was missing until the call that changed its place. -/
structure RunState.Confined (names : RealPath) (s s' : RunState) : Prop where
  files : FileSystem.Confined names s.fs s'.fs
  trace : ∃ events, s'.trace = s.trace ++ events ∧
    ∀ c fs, .call c fs ∈ events → ∀ q, (fs.answer c).2.get? q ≠ fs.get? q →
      Touchable names s.fs s'.fs q ∧ Touchable names fs s'.fs q

namespace RunState

theorem Confined.refl (names : RealPath) (s : RunState) : s.Confined names s :=
  ⟨.refl names s.fs, [], (List.append_nil _).symm, fun _ _ he => absurd he List.not_mem_nil⟩

theorem Confined.trans (h : Confined names s s') (h' : Confined names s' s'') :
    Confined names s s'' := by
  obtain ⟨hfiles, events, htrace, hevents⟩ := h
  obtain ⟨hfiles', events', htrace', hevents'⟩ := h'
  refine ⟨hfiles.trans hfiles', events ++ events', by rw [htrace', htrace, List.append_assoc], ?_⟩
  intro c fs he q hq
  rcases List.mem_append.1 he with he | he
  · obtain ⟨hstart, hcall⟩ := hevents c fs he q hq
    exact ⟨hstart.later hfiles'.keeps, hcall.later hfiles'.keeps⟩
  · obtain ⟨hstart, hcall⟩ := hevents' c fs he q hq
    exact ⟨hstart.earlier hfiles hfiles'.keeps, hcall⟩

theorem confined_file (options : ExtractOptions) {c : FileCall} {s : RunState}
    (h : FileSystem.Confined names s.fs (s.fs.answer c).2) :
    Confined names s (handler options (.file c) s).2 := by
  refine ⟨h, [.call c s.fs], rfl, ?_⟩
  intro c' fs he q hq
  cases List.mem_singleton.1 he
  exact ⟨h.agree.of_changed hq, h.agree.of_changed hq⟩

theorem confined_tacit (hquiet : options.IsQuiet) (hc : c.IsTacit) (s : RunState) :
    Confined names s (handler options c s).2 := by
  obtain ⟨hfs, htrace⟩ := handler_tacit hquiet hc s
  refine ⟨hfs ▸ .refl names s.fs, ?_⟩
  rcases htrace with htrace | ⟨p, htrace⟩
  · exact ⟨[], by rw [htrace, List.append_nil], fun _ _ he => absurd he List.not_mem_nil⟩
  · refine ⟨[.told p], htrace, ?_⟩
    intro c fs he
    cases List.mem_singleton.1 he

/-- If the single calls that a discipline allows are confined, then so are runs under it. -/
theorem confined_of_reach {D : Discipline (I := Files) FileSystem.answer κ} (hquiet : options.IsQuiet)
    (hcalls : ∀ k k' c fs, D.may k k' c fs → D.fit k fs → D.fit k' (fs.answer c).2 →
      FileSystem.Confined names fs (fs.answer c).2)
    (hreach : (D.inSession hquiet).Reach s s') : Confined names s s' := by
  induction hreach with
  | refl => exact .refl names s
  | tail _ hstep ih =>
    obtain ⟨k, k', c, hmay, hfit, hfit', rfl⟩ := hstep
    refine ih.trans ?_
    by_cases hc : SessionCall.IsTacit c
    · exact confined_tacit hquiet hc _
    · cases c with
      | file c => exact confined_file options (hcalls k k' c _ hmay hfit hfit')
      | _ => exact absurd trivial hc

end RunState

/-! ## Parts of a run that are alone -/

/-- The discipline of a part that is alone with the file system and makes confined calls only. -/
abbrev tidy (names : RealPath) : Discipline (I := Files) FileSystem.answer Unit :=
  .alone _ fun c fs => FileSystem.Confined names fs (fs.answer c).2

theorem letsAsk_tidy (names : RealPath) : (tidy names).LetsAsk := by
  intro _ c fs hstill
  show FileSystem.Confined names fs (fs.answer c).2
  rw [hstill]
  exact .refl names fs

section Tidy

variable {α β : Type} {fs : FileSystem} {p : Path} {post : α → Unit → FileSystem → Prop}

/-- What holds of the single calls holds of the whole. -/
theorem Program.Obeys.confined {prog : Program Files α} (h : prog.Obeys (tidy names) post () fs) :
    prog.Obeys (tidy names) (fun a k fs' => post a k fs' ∧ FileSystem.Confined names fs fs') () fs :=
  h.later (.refl names) .trans fun _ _ hmay => hmay

theorem obeys_realPath {f : Except Refusal Path → Program Files α}
    (h : (f (fs.realPath p)).Obeys (tidy names) post () fs) :
    (Files.realPath p >>= f).Obeys (tidy names) post () fs :=
  Program.obeys_alone_call (.refl names fs) h

theorem obeys_inspect {f : Except Refusal NodeInfo → Program Files α}
    (h : (f (fs.inspect true p)).Obeys (tidy names) post () fs) :
    (Files.inspect p >>= f).Obeys (tidy names) post () fs :=
  Program.obeys_alone_call (.refl names fs) h

theorem obeys_inspectLink {f : Except Refusal NodeInfo → Program Files α}
    (h : (f (fs.inspect false p)).Obeys (tidy names) post () fs) :
    (Files.inspectLink p >>= f).Obeys (tidy names) post () fs :=
  Program.obeys_alone_call (.refl names fs) h

theorem obeys_isDirectory {f : Bool → Program Files α}
    (h : (f (fs.isDirectory p)).Obeys (tidy names) post () fs) :
    (Files.isDirectory p >>= f).Obeys (tidy names) post () fs := by
  have hreply : (answer (.inspect true p) fs).1 = fs.inspect true p := rfl
  refine Program.obeys_alone_call (.refl names fs) ?_
  rw [isDirectory] at h
  cases hinspect : fs.inspect true p with
  | ok i =>
    rw [hinspect] at h
    rw [hreply.trans hinspect]
    exact h
  | error e =>
    rw [hinspect] at h
    rw [hreply.trans hinspect]
    exact h

/-- A change is refused or made. -/
theorem settle_cases {change : Except Refusal FileSystem} {P : Except Refusal Unit → FileSystem → Prop}
    (herror : ∀ e, change = .error e → P (.error e) fs) (hok : ∀ fs', change = .ok fs' → P (.ok ()) fs') :
    P (fs.settle change).1 (fs.settle change).2 := by
  cases change with
  | error e => exact herror e rfl
  | ok fs' => exact hok fs' rfl

theorem obeys_settle {change : Except Refusal FileSystem} {f : Except Refusal Unit → Program Files α}
    (herror : ∀ e, change = .error e → (f (.error e)).Obeys (tidy names) post () fs)
    (hok : ∀ fs', change = .ok fs' → FileSystem.Confined names fs fs' ∧
      (f (.ok ())).Obeys (tidy names) post () fs') :
    FileSystem.Confined names fs (fs.settle change).2 ∧
      (f (fs.settle change).1).Obeys (tidy names) post () (fs.settle change).2 := by
  refine settle_cases (P := fun reply fs' => FileSystem.Confined names fs fs' ∧
    (f reply).Obeys (tidy names) post () fs') ?_ hok
  intro e he
  exact ⟨.refl names fs, herror e he⟩

theorem obeys_makeDirectory {f : Except Refusal Unit → Program Files α}
    (herror : ∀ e, fs.makeDirectory p = .error e → (f (.error e)).Obeys (tidy names) post () fs)
    (hok : ∀ fs', fs.makeDirectory p = .ok fs' → FileSystem.Confined names fs fs' ∧
      (f (.ok ())).Obeys (tidy names) post () fs') :
    (Files.makeDirectory p >>= f).Obeys (tidy names) post () fs := by
  obtain ⟨hconfined, hnext⟩ := obeys_settle herror hok
  exact Program.obeys_alone_call hconfined hnext

theorem obeys_setMode {f : Except Refusal Unit → Program Files α} {mode : UInt32}
    (herror : ∀ e, fs.setMode p mode = .error e → (f (.error e)).Obeys (tidy names) post () fs)
    (hok : ∀ fs', fs.setMode p mode = .ok fs' → FileSystem.Confined names fs fs' ∧
      (f (.ok ())).Obeys (tidy names) post () fs') :
    (Files.setMode p mode >>= f).Obeys (tidy names) post () fs := by
  obtain ⟨hconfined, hnext⟩ := obeys_settle herror hok
  exact Program.obeys_alone_call hconfined hnext

end Tidy

end TreeImage
