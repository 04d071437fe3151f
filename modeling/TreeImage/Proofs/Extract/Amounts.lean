import TreeImage.Proofs.Extract.Tally
import TreeImage.Proofs.Manifest.Sizes

set_option autoImplicit false

/-! # How many bytes a run counts

The byte counter of a run only grows, and ends with the sizes of the files that were put in place. So what it counts
and tells on the way is bounded by the sizes of all selected files, whether the run ends in a report or in an error. All
files of a manifest together fit into its blob, and hence no sum of sizes goes beyond sixty-four bits
(`Manifest.sizes_fit`). -/

namespace TreeImage

variable {options : ExtractOptions} {plan : RunPlan} {image : Image} {schedule : List Nat} {s s' t : RunState}
  {log before : List (Exchange Session)} {root : Path} {entries : List Entry} {slots pending : List Slot}
  {results : List (Option Outcome)} {result : Except ExtractError Report} {fs : FileSystem} {total : Nat}

/-! ## The byte counter -/

namespace Handler.Leads

theorem bytesWritten_le (h : (RunState.handler options).Leads s log s') : s.bytesWritten ≤ s'.bytesWritten :=
  h.bytesWritten_eq ▸ Nat.le_add_right _ _

/-- At every moment of a dialogue the counter is at most what it is in the end. -/
theorem bytesWritten_le_of_prefix (h : (RunState.handler options).Leads s log s') (hbefore : before <+: log)
    (hmoment : (RunState.handler options).Leads s before t) : t.bytesWritten ≤ s'.bytesWritten := by
  obtain ⟨after, rfl⟩ := hbefore
  rw [h.bytesWritten_eq, hmoment.bytesWritten_eq, marks_append, List.map_append, List.sum_append, ← Nat.add_assoc]
  exact Nat.le_add_right _ _

/-- So is every sum that it comes to. -/
theorem sum_le_bytesWritten (h : (RunState.handler options).Leads s log s') {n sum : Nat}
    (hcounted : (⟨.countBytes n, sum⟩ : Exchange Session) ∈ log) : sum ≤ s'.bytesWritten := by
  induction h with
  | nil => cases hcounted
  | @snoc log t hleads c ih =>
    rcases List.mem_append.1 hcounted with hearlier | hlast
    · exact (ih hearlier).trans (Handler.Leads.nil.snoc c).bytesWritten_le
    · obtain ⟨rfl, hsum⟩ := Sigma.mk.inj (List.mem_singleton.1 hlast)
      obtain rfl := eq_of_heq hsum
      exact Nat.le_refl _

end Handler.Leads

/-- From its start on, a run counts and tells of no more than `total` bytes, of which it tells as the total. -/
structure RunState.CountsUpTo (options : ExtractOptions) (fs : FileSystem) (s : RunState) (total : Nat) : Prop where
  dialogue : ∃ log, (RunState.handler options).Leads (.start fs options) log s ∧
    (∀ before t, before <+: log → (RunState.handler options).Leads (.start fs options) before t →
      t.bytesWritten ≤ total) ∧
    ∀ n sum : Nat, (⟨.countBytes n, sum⟩ : Exchange Session) ∈ log → sum ≤ total
  told : ∀ p ∈ s.announced, p.bytesTotal = total ∧ p.bytesWritten ≤ total

theorem RunPlan.Counts.countsUpTo (h : plan.Counts options (.start fs options) s) (htotal : plan.bytesTotal = total)
    (hle : s.bytesWritten ≤ total) : s.CountsUpTo options fs total := by
  obtain ⟨log, notes, hleads, hnotes⟩ := h
  have hsums : ∀ n sum : Nat, (⟨.countBytes n, sum⟩ : Exchange Session) ∈ log → sum ≤ total :=
    fun n sum hcounted => (hleads.sum_le_bytesWritten hcounted).trans hle
  refine ⟨⟨log, hleads, fun before t hbefore hmoment => ?_, hsums⟩, fun p hp => ?_⟩
  · exact (hleads.bytesWritten_le_of_prefix hbefore hmoment).trans hle
  · -- what is told is told of a note, for which its sum was counted
    have hannounced : p ∈ announcements log := by
      rw [hleads.announced] at hp
      split at hp
      · exact hp
      · cases hp
    rw [← announcements_counting, announcements, (hnotes.filterMap _).mem_iff, ← announcements,
      announcements_notes] at hannounced
    obtain ⟨n, hn, rfl⟩ := List.mem_map.1 hannounced
    have hcounted : (⟨.countBytes n.written, n.bytes⟩ : Exchange Session) ∈ counting log :=
      hnotes.mem_iff.2 (List.mem_flatMap.2 ⟨n, hn, List.mem_cons_of_mem _ List.mem_cons_self⟩)
    exact ⟨htotal, hsums n.written n.bytes (List.mem_filter.1 hcounted).1⟩

/-! ## The passes -/

theorem sum_written_le (slots : List Slot) :
    (slots.map (·.written)).sum ≤ Entry.totalBytes ((slots.map (·.entry)).filter (·.isFile)) := by
  induction slots with
  | nil => exact Nat.le_refl _
  | cons slot rest ih =>
    rw [List.map_cons, List.sum_cons, List.map_cons, List.filter_cons, Slot.written]
    cases hfile : slot.entry.isFile with
    | false => exact (Nat.zero_add _).trans_le ih
    | true =>
      refine Nat.add_le_add ?_ ih
      split
      · exact Nat.le_refl _
      · exact Nat.zero_le _

/-- The passes count no more than all files have. -/
theorem execute_counts (hplan : plan.options = options)
    (hsizes : ∀ e ∈ slots.map (·.entry), e.isFile = true → (image.content e).length = e.size.toNat)
    (h : plan.execute schedule image slots s = (result, s')) : plan.Counts options s s' ∧
      s'.bytesWritten ≤ s.bytesWritten + Entry.totalBytes ((slots.map (·.entry)).filter (·.isFile)) := by
  obtain ⟨notes, ended, htells, haccounts, -⟩ := execute_tells hplan hsizes h
  refine ⟨htells.counts, htells.bytesWritten_eq.trans_le (Nat.add_le_add_left ?_ _)⟩
  calc (notes.map (·.written)).sum
      ≤ (slots.map (·.written)).sum + (notes.map (·.written)).sum := Nat.le_add_left _ _
    _ = (ended.map (·.written)).sum := haccounts.sum_written
    _ ≤ _ := haccounts.entries ▸ sum_written_le ended

/-! ## Extraction -/

/-- **A run counts and tells of no more bytes than the selected files have.** -/
theorem extract_countsUpTo {bytes : Bytes} (hparse : Image.parse bytes = .ok image) {target : Option Path}
    (h : extract options schedule image target (.start fs options) = (result, s)) :
    s.CountsUpTo options fs
      (Entry.totalBytes ((image.manifest.select options.filter).filter (·.isFile))) := by
  obtain ⟨err, hprepare, -⟩ | ⟨plan, slots, t, hprepare, hplan, -, hslots, -, hexecute⟩ := extract_cases h
  · -- no plan was made, and of any it holds that nothing was counted
    have htells := countsNothing_prepare.tells
      ⟨⟨[]⟩, ⟨[]⟩, options, 0, 0, Entry.totalBytes ((image.manifest.select options.filter).filter (·.isFile))⟩ hprepare
    exact htells.counts.countsUpTo rfl (htells.bytesWritten_eq.trans_le (Nat.zero_le _))
  · have hentries := map_entry_of_opened (slotsFor_opened hslots)
    have htotal : plan.bytesTotal = Entry.totalBytes ((image.manifest.select options.filter).filter (·.isFile)) := by
      obtain ⟨root, realRoot, -, -, rfl, -⟩ := run_prepare_eq_ok hprepare
      rw [planFor, hentries]
    have hprepared := countsNothing_prepare.tells plan hprepare
    obtain ⟨hcounts, hle⟩ := execute_counts hplan (hentries ▸ fun e he =>
      Image.length_content hparse ((image.manifest.select_sublist _).subset he)) hexecute
    rw [hprepared.bytesWritten_eq, hentries] at hle
    exact (hprepared.counts.trans hcounts).countsUpTo htotal (hle.trans (Nat.zero_add _).le)

namespace Manifest

variable {m : Manifest}

/-- **No sum of sizes goes beyond sixty-four bits.** In a manifest that passed its checks over a blob of this length,
    all files together are no longer than the blob. So sixty-four bits are enough to add up the sizes of the files
    among any of its entries, one after the other, and to find where a content ends when ranges are compared. A run
    that extracts it, along any schedule and however it ends, never counts more bytes than the selected files have, and
    tells of no more. -/
theorem sizes_fit (blobLength : UInt64) (h : m.validate blobLength.toNat = .ok ()) :
    m.totalSize ≤ blobLength.toNat ∧
      (∀ es : List Entry, es.Sublist m.entries → ∃ w ≤ blobLength, Entry.wordTotal (es.filter (·.isFile)) = some w ∧
        w.toNat = Entry.totalBytes (es.filter (·.isFile))) ∧
      (∀ e ∈ m.byOffset, e.offset + e.size ≤ blobLength ∧ (e.offset + e.size).toNat = e.stop) ∧
      ∀ (options : ExtractOptions) (schedule : List Nat) (bytes : Bytes) (image : Image) (target : Option Path)
        (fs : FileSystem) (result : Except ExtractError Report) (s : RunState),
        Image.parse bytes = .ok image → image.manifest = m →
        extract options schedule image target (.start fs options) = (result, s) →
        Entry.totalBytes ((m.select options.filter).filter (·.isFile)) ≤ blobLength.toNat ∧
          s.CountsUpTo options fs (Entry.totalBytes ((m.select options.filter).filter (·.isFile))) := by
  have hformed := (validate_eq_ok_iff_wellFormed _ _).1 h
  refine ⟨totalSize_le h, fun es hes => ?_, fun e he => ?_, ?_⟩
  · have hle := totalBytes_files_le h hes
    have hfits := Nat.lt_of_le_of_lt hle blobLength.toNat_lt
    have hword : (UInt64.ofNat (Entry.totalBytes (es.filter (·.isFile)))).toNat = Entry.totalBytes (es.filter (·.isFile)) :=
      UInt64.toNat_ofNat_of_lt hfits
    exact ⟨_, UInt64.le_iff_toNat_le.2 (hword.trans_le hle), Entry.wordTotal_eq_some hfits, hword⟩
  · have hle := hformed.stop_le (mem_files_of_mem_byOffset he)
    have hstop : (e.offset + e.size).toNat = e.stop := Entry.toNat_add_of_lt (Nat.lt_of_le_of_lt hle blobLength.toNat_lt)
    exact ⟨UInt64.le_iff_toNat_le.2 (hstop.trans_le hle), hstop⟩
  · rintro options schedule bytes image target fs result s hparse rfl hrun
    exact ⟨totalBytes_files_le h (image.manifest.select_sublist _), extract_countsUpTo hparse hrun⟩

/-- Two workers take turns at two files, of which the first comes last in the blob, and the last byte is in neither. -/
theorem sizes_fit_turns :
    let options : ExtractOptions := { workers := 2, onProgress := some fun _ fs => (fs, false) }
    let m : Manifest := ⟨[.directory "d" none, .file "a" 2 1 (.of [122]) none, .file "d/b" 0 2 (.of [120, 121]) none]⟩
    let image : Image := .written m [120, 121, 122, 123]
    m.validate (4 : UInt64).toNat = .ok () ∧ Image.parse image.source = .ok image ∧ m.totalSize ≤ 4 ∧
      ∃ result s, extract options [0, 1, 0, 1] image (some (.ofString "/out")) (.start (rootWith []) options) =
          (result, s) ∧
        s.announced.map (fun p => (p.bytesWritten, p.bytesTotal)) = [(0, 3), (1, 3), (3, 3)] ∧
        s.CountsUpTo options (rootWith []) 3 := by
  intro options m image
  have hvalid : ∀ d d' : Digest, Manifest.validate
      ⟨[.directory "d" none, .file "a" 2 1 d none, .file "d/b" 0 2 d' none]⟩ 4 = .ok () := by
    intro d d'
    cbv
  have hparse : Image.parse image.source = .ok image :=
    Image.parse_written (by decide) (by decide) (hvalid _ _) (by decide)
  obtain ⟨hsize, -, -, hruns⟩ := sizes_fit 4 (hvalid (.of [122]) (.of [120, 121]))
  have htotal : Entry.totalBytes ((m.select options.filter).filter (·.isFile)) = 3 := by decide
  have htold : (extract options [0, 1, 0, 1] image (some (.ofString "/out")) (.start (rootWith []) options)).2.announced.map
      (fun p => (p.bytesWritten, p.bytesTotal)) = [(0, 3), (1, 3), (3, 3)] := by decide +kernel
  rcases hrun : extract options [0, 1, 0, 1] image (some (.ofString "/out")) (.start (rootWith []) options) with ⟨result, s⟩
  rw [hrun] at htold
  obtain ⟨-, hcounts⟩ := hruns options [0, 1, 0, 1] image.source image _ (rootWith []) result s hparse rfl hrun
  exact ⟨hvalid _ _, hparse, hsize, result, s, rfl, htold, htotal ▸ hcounts⟩

end Manifest

end TreeImage
