import Mathlib.Data.List.Induction
import TreeImage.Proofs.Extract.Directories
import TreeImage.Proofs.Extract.FileClaims
import TreeImage.Proofs.FileSystem.Answers
import TreeImage.Proofs.Text.Ascii

set_option autoImplicit false

/-! # Where entries belong

Below a real root without links every entry has one place of its own, its `home`: the names of its path
lead there, if they lead anywhere. -/

namespace TreeImage

open FileSystem

variable {names real front d : RealPath} {n : Name} {fs fs' : FileSystem} {path : String} {p : Path}

/-! ## Without links -/

/-- No symbolic link lies strictly below the place. -/
def NoLinksBelow (real : RealPath) (fs : FileSystem) : Prop :=
  ∀ q target, real.Contains q → fs.get? q ≠ some (.symlink target)

/-- It is enough that the table has no links. -/
theorem noLinksBelow_of_nodes (h : fs.nodes.all (·.2.kind != .symlink) = true) (real : RealPath) :
    NoLinksBelow real fs := by
  intro q target _ hget
  obtain ⟨before, after, hnodes, -⟩ := List.lookup_eq_some_iff.1 hget
  have hnode : (q, Node.symlink target) ∈ fs.nodes := by
    rw [hnodes]
    exact List.mem_append_right _ List.mem_cons_self
  exact absurd (List.all_eq_true.1 h _ hnode) (by simp [Node.kind])

theorem contains_append {r : RealPath} (hne : front ≠ []) : r.Contains (r ++ front) :=
  ⟨List.prefix_append r front, fun h => hne (List.append_right_eq_self.1 h.symm)⟩

/-- Below a root without links, names lead to the place that they spell. -/
theorem NoLinksBelow.eq_of_leadsTo (hlinks : NoLinksBelow real fs) (hroot : fs.LeadsTo names.toPath real)
    (hproper : RealPath.IsProper (names ++ front)) (h : fs.LeadsTo (RealPath.toPath (names ++ front)) d) :
    d = real ++ front := by
  induction front using List.reverseRecOn generalizing d with
  | nil =>
    rw [List.append_nil] at h ⊢
    exact h.unique hroot
  | append_singleton front n ih =>
    rw [← List.append_assoc] at hproper h
    obtain ⟨m, hfind⟩ := h.find
    obtain ⟨d', hd'⟩ := leadsTo_of_find_entry hproper hfind
    obtain rfl := ih (RealPath.isProper_append.1 hproper).1 hd'
    have hlink : ∀ target, fs.get? (real ++ front ++ [n]) ≠ some (.symlink target) := fun target =>
      hlinks _ target (.append (List.prefix_append real front) n)
    rw [find_entry_follow hproper hd' hlink] at hfind
    rw [(find_entry_eq_ok hproper hd' hfind).2.2.1, List.append_assoc]

/-- The names of an entry are those of the directory that it lies in, and its own. -/
theorem Entry.exists_names (e : Entry) : ∃ front, entryNames e.path = front ++ [e.name] :=
  exists_entryNames_eq_append e.path

/-- Names of entries are text. -/
theorem Entry.lossy_name (e : Entry) : utf8 (lossy e.name) = e.name := by rw [Entry.name, lossy_utf8]

/-- The place where an entry belongs. -/
def Entry.home (real : RealPath) (e : Entry) : RealPath := real ++ entryNames e.path

theorem Entry.contains_home (real : RealPath) (e : Entry) : real.Contains (e.home real) :=
  contains_append (entryNames_ne_nil e.path)

/-- The directory of that place. -/
def Entry.folder (real : RealPath) (e : Entry) : RealPath := (e.home real).dropLast

theorem Entry.folder_eq {e : Entry} (real : RealPath) (hfront : entryNames e.path = front ++ [e.name]) :
    e.folder real = real ++ front := by
  rw [folder, home, hfront, ← List.append_assoc, List.dropLast_concat]

theorem Entry.home_eq (real : RealPath) (e : Entry) : e.home real = e.folder real ++ [e.name] := by
  obtain ⟨front, hfront⟩ := e.exists_names
  rw [e.folder_eq real hfront, home, hfront, List.append_assoc]

theorem Entry.prefix_folder (real : RealPath) (e : Entry) : real <+: e.folder real := by
  obtain ⟨front, hfront⟩ := e.exists_names
  rw [e.folder_eq real hfront]
  exact List.prefix_append real front

/-- The destination of an entry spells its names below the root. -/
theorem exists_destination (hnames : names.IsProper) {e : Entry}
    (h : sanitize names.toPath e.path = .ok p) (hfront : entryNames e.path = front ++ [e.name]) :
    RealPath.IsProper (names ++ front ++ [e.name]) ∧ p = RealPath.toPath (names ++ front ++ [e.name]) := by
  obtain ⟨hproper, rfl⟩ := sanitize_eq_ok hnames h
  have hall := RealPath.isProper_append.2 ⟨hnames, hproper⟩
  rw [hfront, ← List.append_assoc] at hall ⊢
  exact ⟨hall, rfl⟩

/-- If the directory of an entry is there, it is where the home of the entry says. -/
theorem NoLinksBelow.eq_folder (hlinks : NoLinksBelow real fs) (hroot : fs.LeadsTo names.toPath real)
    (hnames : names.IsProper) {e : Entry} (hp : sanitize names.toPath e.path = .ok p)
    (h : fs.Names p d e.name) : d = e.folder real := by
  obtain ⟨front, hfront⟩ := e.exists_names
  obtain ⟨hproper, rfl⟩ := exists_destination hnames hp hfront
  rw [e.folder_eq real hfront,
    hlinks.eq_of_leadsTo hroot (RealPath.isProper_append.1 hproper).1 (h.leadsTo hproper)]

/-- The path of an entry names it where its directory is. -/
theorem names_destination (hnames : names.IsProper) {e : Entry} (hp : sanitize names.toPath e.path = .ok p)
    (hfront : entryNames e.path = front ++ [e.name])
    (hd : fs.LeadsTo (RealPath.toPath (names ++ front)) d) : fs.Names p d e.name := by
  obtain ⟨hproper, rfl⟩ := exists_destination hnames hp hfront
  exact ⟨names ++ front, hproper, rfl, hd⟩

/-- Accepted entry paths have no NUL in them. -/
theorem contains_of_sanitize {root : Path} (hp : sanitize root path = .ok p) :
    ∀ n ∈ entryNames path, n.contains 0 = false := by
  intro n hn
  obtain ⟨segment, hsegment, rfl⟩ := List.mem_map.1 hn
  rw [← Bool.not_eq_true, List.contains_iff_mem, segmentName, mem_utf8_iff (by decide), String.toList_ofList]
  intro hnul
  have hmem : '\x00' ∈ path.toList := mem_of_mem_segments hsegment hnul
  rw [sanitize] at hp
  split at hp
  · cases hp
  · next hfault =>
    have hcontains := List.contains_iff_mem.2 hmem
    rw [pathFault?] at hfault
    split_ifs at hfault

/-! ## Homes of slots -/

section Slots

variable {slots : List Slot} {slot slot' : Slot}

/-- The home of the entry of some slot. -/
def IsHome (real : RealPath) (slots : List Slot) (q : RealPath) : Prop :=
  ∃ slot ∈ slots, q = slot.entry.home real

/-- Slots whose entries have different homes. -/
def HomesDiffer (real : RealPath) (slots : List Slot) : Prop :=
  (slots.map (·.entry.home real)).Nodup

theorem HomesDiffer.ne (h : HomesDiffer real slots) {i j : Nat} (hi : slots[i]? = some slot)
    (hj : slots[j]? = some slot') (hne : i ≠ j) : slot.entry.home real ≠ slot'.entry.home real := by
  intro heq
  obtain ⟨hlt, -⟩ := List.getElem?_eq_some_iff.1 hi
  have hsame : (slots.map (·.entry.home real))[i]? = (slots.map (·.entry.home real))[j]? := by
    rw [List.getElem?_map, List.getElem?_map, hi, hj]
    exact congrArg some heq
  exact hne ((List.getElem?_inj (by simpa using hlt) h).1 hsame)

theorem HomesDiffer.sublist {slots' : List Slot} (h : HomesDiffer real slots) (hsub : slots'.Sublist slots) :
    HomesDiffer real slots' := List.Nodup.sublist (hsub.map _) h

theorem HomesDiffer.eq (h : HomesDiffer real slots) (hslot : slot ∈ slots) (hslot' : slot' ∈ slots)
    (heq : slot.entry.home real = slot'.entry.home real) : slot = slot' :=
  List.inj_on_of_nodup_map h hslot hslot' heq

/-- Entries with paths of their own have homes of their own. -/
theorem homesDiffer_of_paths (h : (slots.map (·.entry.path)).Nodup) (real : RealPath) :
    HomesDiffer real slots := by
  have hpaths : slots.map (·.entry.home real) = (slots.map (·.entry.path)).map (real ++ entryNames ·) := by
    rw [List.map_map]
    rfl
  rw [HomesDiffer, hpaths]
  exact h.map fun a b heq => entryNames_injective (List.append_cancel_left heq)

theorem homesDiffer_cons : HomesDiffer real (slot :: slots) ↔
    (∀ slot' ∈ slots, slot'.entry.home real ≠ slot.entry.home real) ∧ HomesDiffer real slots := by
  simp [HomesDiffer]

/-- The destination of the slot names the home of its entry, in a directory that is there. -/
def Slot.Within (fs : FileSystem) (real : RealPath) (slot : Slot) : Prop :=
  ∃ p, slot.destination = some p ∧ fs.Names p (slot.entry.folder real) slot.name

theorem Slot.Within.keeps (h : slot.Within fs real) (hkeeps : Keeps fs fs') : slot.Within fs' real := by
  obtain ⟨p, hp, hnames⟩ := h
  exact ⟨p, hp, hkeeps.names hnames⟩

end Slots

end TreeImage
