import TreeImage.Extract.Passes
import TreeImage.Proofs.Extract.Confinement

set_option autoImplicit false

/-! # The discipline of the file pass

Several workers put files in place at the same time. Each may own one temporary file, and it remembers the
places that are settled: a settled place holds a regular file that one of the pending entries wants there,
and it keeps holding one, whoever replaces it. The rest of the file system is a frame that nobody touches.

The owner of a temporary file is the only one to change it, unless some pending entry has the very name of
a temporary file (`NamesApart`). -/

namespace TreeImage

open FileSystem

variable {real q t d : RealPath} {start fs fs' : FileSystem} {pending : List Slot} {slot : Slot}

/-! ## Aims -/

/-- The name of an entry in its directory. -/
def Entry.name (e : Entry) : Name := utf8 (lastSegment e.path)

/-- The name of the entry of a slot. -/
def Slot.name (slot : Slot) : Name := slot.entry.name

/-- The entry of a slot is meant for the place `q`. -/
def Slot.Aims (start : FileSystem) (slot : Slot) (q : RealPath) : Prop :=
  ∃ p d, slot.destination = some p ∧ start.Names p d slot.name ∧ IsAcceptable slot.name ∧
    q = d ++ [slot.name]

/-- The place holds a regular file that some pending entry wants there. -/
def Settled (start : FileSystem) (pending : List Slot) (fs : FileSystem) (q : RealPath) : Prop :=
  ∃ slot ∈ pending, slot.Aims start q ∧
    ∃ mode content, fs.get? q = some (.file mode content) ∧ Digest.of content = slot.entry.digest

/-- The place has the name of a temporary file for some pending entry. -/
def IsTemporary (pending : List Slot) (t : RealPath) : Prop :=
  ∃ slot ∈ pending, ∃ d n, t = d ++ [temporaryName slot.name n]

/-- No entry is named like a temporary file for one of them. -/
def NamesApart (entries : List Entry) : Prop :=
  ∀ e ∈ entries, ∀ e' ∈ entries, ∀ n, e.name ≠ temporaryName e'.name n

theorem NamesApart.mono {entries entries' : List Entry} (h : NamesApart entries)
    (hsub : entries' ⊆ entries) : NamesApart entries' :=
  fun e he e' he' => h e (hsub he) e' (hsub he')

/-- No entry is meant for the place of a temporary file. -/
theorem NamesApart.not_temporary (h : NamesApart (pending.map (·.entry))) (hslot : slot ∈ pending)
    (haims : slot.Aims start q) : ¬IsTemporary pending q := by
  rintro ⟨slot', hslot', d', n, hq'⟩
  obtain ⟨p, d, -, -, -, hq⟩ := haims
  have hlast := List.append_inj_right' (hq.symm.trans hq') rfl
  exact h _ (List.mem_map_of_mem hslot) _ (List.mem_map_of_mem hslot') n (List.singleton_inj.1 hlast)

theorem NamesApart.not_settled (h : NamesApart (pending.map (·.entry))) (ht : IsTemporary pending q) :
    ¬Settled start pending fs q := by
  rintro ⟨slot, hslot, haims, -⟩
  exact h.not_temporary hslot haims ht

theorem Settled.get? (h : Settled start pending fs q) :
    ∃ mode content, fs.get? q = some (.file mode content) := by
  obtain ⟨slot, -, -, mode, content, hget, -⟩ := h
  exact ⟨mode, content, hget⟩

theorem Settled.of_get? (h : Settled start pending fs q) (hget : fs'.get? q = fs.get? q) :
    Settled start pending fs' q := by
  obtain ⟨slot, hslot, haims, mode, content, hfile, hdigest⟩ := h
  exact ⟨slot, hslot, haims, mode, content, hget.trans hfile, hdigest⟩

/-! ## Claims -/

/-- What a worker knows: the place of its temporary file, and which places are settled. -/
structure FileClaim where
  temporary : Option RealPath
  settled : RealPath → Prop

namespace FileClaim

/-- Without its temporary file. -/
def release (k : FileClaim) : FileClaim := ⟨none, k.settled⟩

/-- With a temporary file of its own. -/
def own (k : FileClaim) (t : RealPath) : FileClaim := ⟨some t, k.settled⟩

/-- With one more settled place, and without the temporary file that went there. -/
def settle (k : FileClaim) (q : RealPath) : FileClaim := ⟨none, fun q' => k.settled q' ∨ q' = q⟩

/-- Nothing is settled yet. -/
def initial : FileClaim := ⟨none, fun _ => False⟩

variable {k k' l : FileClaim}

/-- What a claim says of the file system. -/
structure Fits (real : RealPath) (start : FileSystem) (pending : List Slot) (k : FileClaim)
    (fs : FileSystem) : Prop where
  frame : SameFrame start fs
  settled : ∀ q, k.settled q → Settled start pending fs q
  taken : ∀ t, k.temporary = some t → ∃ mode content, fs.get? t = some (.file mode content)
  name : ∀ t, k.temporary = some t → IsTemporary pending t
  inside : ∀ t, k.temporary = some t → real.Contains t
  free : ∀ t, k.temporary = some t → ¬k.settled t

/-- What the holder of a claim may do to the file system. -/
structure Move (real : RealPath) (start : FileSystem) (pending : List Slot) (k k' : FileClaim)
    (fs fs' : FileSystem) : Prop where
  kept : ∀ q, k.settled q → k'.settled q
  temporary : ∀ t, k'.temporary = some t → k.temporary = some t ∨ fs.get? t = none
  inside : ∀ q, fs'.get? q ≠ fs.get? q → real.Contains q
  changed : ∀ q, fs'.get? q ≠ fs.get? q →
    IsTemporary pending q ∧ (k.temporary = some q ∨ fs.get? q = none) ∨ Settled start pending fs' q

/-- Two workers do not own the same temporary file, and no entry is named like one. -/
def Apart (pending : List Slot) (k l : FileClaim) : Prop :=
  NamesApart (pending.map (·.entry)) ∧ ∀ t, k.temporary = some t → l.temporary ≠ some t

/-- Whatever one worker does, the claims of the others stay as they are. -/
theorem Move.spares (hmove : Move real start pending k k' fs fs') (hfit : k.Fits real start pending fs)
    (hfit' : k'.Fits real start pending fs') (hother : l.Fits real start pending fs)
    (hapart : Apart pending k l) :
    (∀ t, l.temporary = some t → fs'.get? t = fs.get? t) ∧ l.Fits real start pending fs' ∧
      Apart pending k' l := by
  obtain ⟨hnames, htemporary⟩ := hapart
  have hrely : ∀ t, l.temporary = some t → fs'.get? t = fs.get? t := by
    intro t ht
    by_contra hne
    -- a changed place was the mover's own, or free, or is settled now, and `t` is none of these
    rcases hmove.changed t hne with ⟨-, howned | hnone⟩ | hsettled
    · exact htemporary t howned ht
    · obtain ⟨mode, content, hget⟩ := hother.taken t ht
      cases hnone.symm.trans hget
    · exact hnames.not_settled (hother.name t ht) hsettled
  have hsettled : ∀ q, l.settled q → Settled start pending fs' q := by
    intro q hq
    have hbefore := hother.settled q hq
    by_cases hne : fs'.get? q = fs.get? q
    · exact hbefore.of_get? hne
    -- a settled place changes only from one wanted content to another
    · rcases hmove.changed q hne with ⟨-, howned | hnone⟩ | hafter
      · exact absurd hbefore (hnames.not_settled (hfit.name q howned))
      · obtain ⟨mode, content, hget⟩ := hbefore.get?
        cases hnone.symm.trans hget
      · exact hafter
  refine ⟨hrely, ⟨hfit'.frame, hsettled, ?_, hother.name, hother.inside, hother.free⟩, hnames, ?_⟩
  · intro t ht
    rw [hrely t ht]
    exact hother.taken t ht
  · intro t ht hl
    rcases hmove.temporary t ht with howned | hnone
    · exact htemporary t howned hl
    · obtain ⟨mode, content, hget⟩ := hother.taken t hl
      cases hnone.symm.trans hget

end FileClaim

/-- The discipline of the file pass, which started with the file system `start`. -/
def filing (real : RealPath) (start : FileSystem) (pending : List Slot) :
    Discipline (I := Files) FileSystem.answer FileClaim where
  fit := FileClaim.Fits real start pending
  rely k fs fs' := ∀ t, k.temporary = some t → fs'.get? t = fs.get? t
  may k k' c fs := FileClaim.Move real start pending k k' fs (fs.answer c).2
  apart := FileClaim.Apart pending
  rely_refl _ _ _ _ := rfl
  rely_trans h h' t ht := (h' t ht).trans (h t ht)
  apart_symm h := ⟨h.1, fun t ht hk => h.2 t hk ht⟩
  spares := FileClaim.Move.spares

theorem FileClaim.fits_initial (real : RealPath) (fs : FileSystem) (pending : List Slot) :
    initial.Fits real fs pending fs :=
  ⟨.refl fs, nofun, nofun, nofun, nofun, nofun⟩

/-- Calls of the file pass are confined. -/
theorem confined_of_move {names : RealPath} {k k' : FileClaim} (hroot : start.LeadsTo names.toPath real)
    (hmove : FileClaim.Move real start pending k k' fs fs') (hfit : k.Fits real start pending fs)
    (hfit' : k'.Fits real start pending fs') : Confined names fs fs' := by
  have hframe := hfit.frame.symm.trans hfit'.frame
  refine confined_of_contains hframe.keeps (hfit.frame.keeps.leadsTo hroot) ?_
  refine ⟨hframe.cwd, hframe.executable, ?_⟩
  intro q hq
  by_contra hne
  exact hq (hmove.inside q hne)

/-! ## What a worker does to the file system -/

namespace FileClaim

variable {k : FileClaim} {mode : UInt32} {content : Bytes}

theorem move_refl (k : FileClaim) (fs : FileSystem) : Move real start pending k k fs fs :=
  ⟨fun _ h => h, fun _ h => .inl h, fun _ h => absurd rfl h, fun _ h => absurd rfl h⟩

theorem letsAsk_filing : (filing real start pending).LetsAsk := by
  intro k c fs hstill
  show Move real start pending k k fs (fs.answer c).2
  rw [hstill]
  exact move_refl k fs

theorem move_release (k : FileClaim) (fs : FileSystem) : Move real start pending k k.release fs fs :=
  ⟨fun _ h => h, nofun, fun _ h => absurd rfl h, fun _ h => absurd rfl h⟩

/-- A change at a single place is a move, if that place may change. -/
theorem move_at {k' : FileClaim} (hother : ∀ q, q ≠ t → fs'.get? q = fs.get? q)
    (hkept : ∀ q, k.settled q → k'.settled q)
    (htemporary : ∀ t', k'.temporary = some t' → k.temporary = some t' ∨ fs.get? t' = none)
    (hinside : real.Contains t)
    (hchanged : IsTemporary pending t ∧ (k.temporary = some t ∨ fs.get? t = none) ∨ Settled start pending fs' t) :
    Move real start pending k k' fs fs' := by
  have hat : ∀ q, fs'.get? q ≠ fs.get? q → q = t := by
    intro q hq
    by_contra hne
    exact hq (hother q hne)
  refine ⟨hkept, htemporary, ?_, ?_⟩
  · intro q hq
    rw [hat q hq]
    exact hinside
  · intro q hq
    rw [hat q hq]
    exact hchanged

/-- Settled places are not where the temporary file is. -/
theorem Fits.settled_of_other (hfit : k.Fits real start pending fs) (ht : k.temporary = some t)
    (hother : ∀ q, q ≠ t → fs'.get? q = fs.get? q) : ∀ q, k.settled q → Settled start pending fs' q := by
  intro q hq
  refine (hfit.settled q hq).of_get? (hother q ?_)
  rintro rfl
  exact hfit.free q ht hq

theorem Fits.frame_temporary (hfit : k.Fits real start pending fs) (ht : k.temporary = some t) :
    fs.frame t = none :=
  frame_eq_none.2 (.inr (hfit.taken t ht))

theorem Fits.release (hfit : k.Fits real start pending fs) : k.release.Fits real start pending fs :=
  ⟨hfit.frame, hfit.settled, nofun, nofun, nofun, nofun⟩

/-- A new temporary file. -/
theorem Fits.own (hfit : k.Fits real start pending fs) (hnone : fs.get? t = none)
    (hname : IsTemporary pending t) (hinside : real.Contains t) (mode : UInt32) (content : Bytes) :
    (k.own t).Fits real start pending (fs.put t (.file mode content)) ∧
      Move real start pending k (k.own t) fs (fs.put t (.file mode content)) := by
  have hother : ∀ q, q ≠ t → (fs.put t (.file mode content)).get? q = fs.get? q :=
    fun q hq => get?_put_of_ne hq _
  have hunsettled : ∀ q, k.settled q → q ≠ t := by
    rintro q hq rfl
    obtain ⟨mode', content', hget⟩ := (hfit.settled q hq).get?
    cases hnone.symm.trans hget
  have hframe : fs.frame t = none := frame_eq_none.2 (.inl hnone)
  constructor
  · refine ⟨hfit.frame.trans (sameFrame_put_file hframe mode content), ?_, ?_, ?_, ?_, ?_⟩
    · intro q hq
      exact (hfit.settled q hq).of_get? (hother q (hunsettled q hq))
    · rintro _ ⟨⟩
      exact ⟨mode, content, get?_put_self ..⟩
    · rintro _ ⟨⟩
      exact hname
    · rintro _ ⟨⟩
      exact hinside
    · rintro _ ⟨⟩ hsettled
      exact hunsettled t hsettled rfl
  · refine move_at hother (fun _ h => h) ?_ hinside (.inl ⟨hname, .inr hnone⟩)
    rintro _ ⟨⟩
    exact .inr hnone

/-- Another content or mode for the temporary file. -/
theorem Fits.rewrite (hfit : k.Fits real start pending fs) (ht : k.temporary = some t) (mode : UInt32)
    (content : Bytes) :
    k.Fits real start pending (fs.put t (.file mode content)) ∧
      Move real start pending k k fs (fs.put t (.file mode content)) := by
  have hother : ∀ q, q ≠ t → (fs.put t (.file mode content)).get? q = fs.get? q :=
    fun q hq => get?_put_of_ne hq _
  have hframe := sameFrame_put_file (hfit.frame_temporary ht) mode content
  constructor
  · refine ⟨hfit.frame.trans hframe, hfit.settled_of_other ht hother, ?_, hfit.name, hfit.inside,
      hfit.free⟩
    intro t' ht'
    obtain rfl := Option.some.inj (ht.symm.trans ht')
    exact ⟨mode, content, get?_put_self ..⟩
  · exact move_at hother (fun _ h => h) (fun _ h => .inl h) (hfit.inside t ht) (.inl ⟨hfit.name t ht, .inl ht⟩)

/-- The temporary file is removed. -/
theorem Fits.erase (hfit : k.Fits real start pending fs) (ht : k.temporary = some t) :
    k.release.Fits real start pending (fs.erase t) ∧
      Move real start pending k k.release fs (fs.erase t) := by
  have hother : ∀ q, q ≠ t → (fs.erase t).get? q = fs.get? q := fun q hq => get?_erase_of_ne hq
  have hframe := sameFrame_erase (hfit.frame_temporary ht)
  constructor
  · exact ⟨hfit.frame.trans hframe, hfit.settled_of_other ht hother, nofun, nofun, nofun, nofun⟩
  · exact move_at hother (fun _ h => h) nofun (hfit.inside t ht) (.inl ⟨hfit.name t ht, .inl ht⟩)

/-- A place that holds what an entry wants there is settled. -/
theorem Fits.settle (hfit : k.Fits real start pending fs) (hsettled : Settled start pending fs q) :
    (k.settle q).Fits real start pending fs ∧ Move real start pending k (k.settle q) fs fs := by
  constructor
  · refine ⟨hfit.frame, ?_, nofun, nofun, nofun, nofun⟩
    rintro q' (hq' | rfl)
    · exact hfit.settled q' hq'
    · exact hsettled
  · exact ⟨fun _ h => .inl h, nofun, fun _ h => absurd rfl h, fun _ h => absurd rfl h⟩

/-- The temporary file goes where its entry is meant for. -/
theorem Fits.commit (hfit : k.Fits real start pending fs) (ht : k.temporary = some t)
    (hget : fs.get? t = some (.file mode content)) (hslot : slot ∈ pending) (haims : slot.Aims start q)
    (hdigest : Digest.of content = slot.entry.digest) (hq : real.Contains q) (hframe : fs.frame q = none) :
    (k.settle q).Fits real start pending ((fs.erase t).put q (.file mode content)) ∧
      Move real start pending k (k.settle q) fs ((fs.erase t).put q (.file mode content)) := by
  have hthere : ((fs.erase t).put q (.file mode content)).get? q = some (.file mode content) :=
    get?_put_self ..
  have hother : ∀ q', q' ≠ q → q' ≠ t →
      ((fs.erase t).put q (.file mode content)).get? q' = fs.get? q' := by
    intro q' hne hne'
    rw [get?_put_of_ne hne, get?_erase_of_ne hne']
  have hchanged : ∀ q', ((fs.erase t).put q (.file mode content)).get? q' ≠ fs.get? q' →
      q' = q ∨ q' = t := by
    intro q' hne
    by_contra hneither
    obtain ⟨hneq, hnet⟩ := not_or.1 hneither
    exact hne (hother q' hneq hnet)
  have hsettled : Settled start pending ((fs.erase t).put q (.file mode content)) q :=
    ⟨slot, hslot, haims, mode, content, hthere, hdigest⟩
  -- the place may be free or hold a regular file; both are outside the frame
  have hfree : (fs.erase t).frame q = none := by
    rw [frame_erase, hframe]
    exact ite_self none
  have herase := hfit.frame.trans (sameFrame_erase (hfit.frame_temporary ht))
  constructor
  · refine ⟨herase.trans (sameFrame_put_file hfree mode content), ?_, nofun, nofun, nofun, nofun⟩
    intro q' hq'
    by_cases hne : q' = q
    · exact hne ▸ hsettled
    · rcases hq' with hq' | rfl
      · refine (hfit.settled q' hq').of_get? (hother q' hne ?_)
        rintro rfl
        exact hfit.free q' ht hq'
      · exact absurd rfl hne
  · refine ⟨fun _ h => .inl h, nofun, ?_, ?_⟩
    · intro q' hne
      rcases hchanged q' hne with rfl | rfl
      · exact hq
      · exact hfit.inside q' ht
    · intro q' hne
      rcases hchanged q' hne with rfl | rfl
      · exact .inr hsettled
      · exact .inl ⟨hfit.name q' ht, .inl ht⟩

end FileClaim

end TreeImage
