import PmemPaths.Proofs.Mapping.Bounds

/-!
# Which pages an unmapping takes

A call to unmap may name any range inside the persistent file, and takes a mapping from whole
pages: as many as the length has when it is rounded up, from the page on in which the range
starts.  Start and length are rounded apart.  Where the start lies in a page and where the
end lies in a page may make up one page more than that (`MappedFile.Overhangs`), and then
the last page that the range shares an address with keeps its mapping
(`MapModel.munmap_releases`).  So an unmapping does not release every page it touches
(`MapModel.munmap_leavesLast`).
-/

namespace PmemPaths.Mapping

namespace MappedFile

variable {f : MappedFile} {pageSize start length p : Nat}

/-- A page of a file shares an address with a range. -/
def Touches (f : MappedFile) (pageSize start length p : Nat) : Prop :=
  ∃ address, start ≤ address ∧ address < start + length ∧
    f.contents + p * pageSize ≤ address ∧ address < f.contents + (p + 1) * pageSize

/-- The last page that shares an address with a range. -/
def lastTouched (f : MappedFile) (pageSize start length : Nat) : Nat :=
  (start - f.contents + (length - 1)) / pageSize

/-- A range reaches into one page more than its length makes when it is rounded up. -/
def Overhangs (f : MappedFile) (pageSize start length : Nat) : Prop :=
  pageSize ≤ (start - f.contents) % pageSize + (length - 1) % pageSize

instance : Decidable (f.Overhangs pageSize start length) := inferInstanceAs (Decidable (_ ≤ _))

/-- The pages that share an address with a range are those from the first to the last. -/
theorem touches_iff (hpageSize : 0 < pageSize) (hlength : 1 ≤ length)
    (hstart : f.contents ≤ start) : f.Touches pageSize start length p ↔
      (start - f.contents) / pageSize ≤ p ∧ p ≤ f.lastTouched pageSize start length := by
  rw [lastTouched, Nat.le_div_iff_mul_le hpageSize, ← Nat.lt_succ_iff,
    Nat.div_lt_iff_lt_mul hpageSize, Nat.succ_eq_add_one]
  constructor
  · rintro ⟨address, hfrom, hto, hpage, hnext⟩
    omega
  · rintro ⟨hnext, hpage⟩
    have hpos : p * pageSize < (p + 1) * pageSize := by
      rw [Nat.add_one_mul]
      omega
    exact ⟨max start (f.contents + p * pageSize), by omega, by omega, by omega, by omega⟩

/-- The last page counts one more if the range overhangs. -/
theorem lastTouched_eq (hpageSize : 0 < pageSize) (hlength : 1 ≤ length) :
    f.lastTouched pageSize start length + 1 =
      (start - f.contents) / pageSize + divUp length pageSize +
        if f.Overhangs pageSize start length then 1 else 0 := by
  have hpages : divUp length pageSize = (length - 1) / pageSize + 1 := by
    rw [divUp, ← Nat.add_div_right _ hpageSize]
    congr 1
    omega
  rw [lastTouched, Nat.add_div hpageSize, hpages]
  by_cases hoverhangs : f.Overhangs pageSize start length
  · rw [if_pos hoverhangs, if_pos (show _ ≤ _ from hoverhangs)]
    omega
  · rw [if_neg hoverhangs, if_neg (show ¬ _ ≤ _ from hoverhangs)]
    omega

/-- An unmapping takes the pages that the range touches, without the last if the range
overhangs. -/
theorem taken_iff (hpageSize : 0 < pageSize) (hlength : 1 ≤ length)
    (hstart : f.contents ≤ start) :
    (start - f.contents) / pageSize ≤ p ∧
        p < (start - f.contents) / pageSize + divUp length pageSize ↔
      f.Touches pageSize start length p ∧
        ¬ (f.Overhangs pageSize start length ∧ p = f.lastTouched pageSize start length) := by
  have hlast : f.lastTouched pageSize start length + 1 = _ := lastTouched_eq hpageSize hlength
  rw [touches_iff hpageSize hlength hstart]
  by_cases hoverhangs : f.Overhangs pageSize start length
  · simp only [hoverhangs, if_true, true_and] at hlast ⊢
    omega
  · simp only [hoverhangs, if_false, false_and, not_false_eq_true, and_true] at hlast ⊢
    omega

end MappedFile

namespace MapModel

open MappedFile

variable {σ κ : Type} {m m' : MapModel σ κ} {mem mem' : MappedMemory} {f : MappedFile}
  {id start length : Nat}

/-- A range inside the persistent file overlaps it. -/
theorem overlapped?_inside (hid : m.pmem = some id) (hf : m.files[id]? = some f)
    (hfits : f.contents < maxAddress) (hlength : 1 ≤ length) (hstart : f.contents ≤ start)
    (hstop : start + length ≤ f.contents + f.size) {found : Option (Nat × MappedFile)}
    (h : m.overlapped? start length = .ok found) : found = some (id, f) := by
  have hpmem : m.pmemFile? = some f := by rw [pmemFile?, hid, Option.bind_some, hf]
  simp only [overlapped?, hid, hpmem] at h
  obtain ⟨overlaps, hoverlaps, h⟩ := bind_eq_ok.mp h
  rw [MappedFile.overlaps] at hoverlaps
  split at hoverlaps
  · obtain ⟨stop, hend, hoverlaps⟩ := bind_eq_ok.mp hoverlaps
    obtain ⟨-, rfl⟩ := addressOf_eq_ok.mp hend
    have hlt : start < f.contents + f.size := by omega
    cases hoverlaps
    rw [decide_eq_true hlt] at h
    cases h
    rfl
  · next hbefore =>
    rw [rangeEnd] at hbefore
    omega

variable [HostMapper σ] [PersistenceChecker κ]

/-- Unmapping a range inside the persistent file takes one mapping from each page that the
range touches, except that it leaves the last one alone if the range overhangs.  All other
pages keep their mappings, and all other files stay as they were. -/
theorem munmap_releases (hm : Reached m) (hid : m.pmem = some id) (hf : m.files[id]? = some f)
    (hfits : f.contents < maxAddress) (hlength : 1 ≤ length) (hstart : f.contents ≤ start)
    (hstop : start + length ≤ f.contents + f.size)
    (h : m.munmap mem start length = .ok (.ok (), m', mem')) :
    ∃ f', m'.files[id]? = some f' ∧
      (∀ p, f.Touches m.pageSize start length p →
        ¬ (f.Overhangs m.pageSize start length ∧ p = f.lastTouched m.pageSize start length) →
        ∃ refs, f.pageRefs[p]? = some (refs + 1) ∧ f'.pageRefs[p]? = some refs) ∧
      (∀ p, ¬ f.Touches m.pageSize start length p ∨
          f.Overhangs m.pageSize start length ∧ p = f.lastTouched m.pageSize start length →
        f'.pageRefs[p]? = f.pageRefs[p]?) ∧
      ∀ i, i ≠ id → m'.files[i]? = m.files[i]? := by
  have htaken := fun p => taken_iff (p := p) hm.wellFormed.pageSize_pos hlength hstart
  generalize hanswer : Except.ok () = answer at h
  cases munmap_run h with
  | refused => cases hanswer
  | byHost hoverlapped =>
    cases overlapped?_inside hid hf hfits hlength hstart hstop hoverlapped
  | uncounted hoverlapped huncounted =>
    cases overlapped?_inside hid hf hfits hlength hstart hstop hoverlapped
    cases huncounted with
    | zeroRefCount => cases hanswer
    | notPmem => cases hanswer
    | all hmapped =>
      have hlt : id < m.files.size := (Array.getElem?_eq_some_iff.mp hf).1
      refine ⟨_, Array.getElem?_setIfInBounds_self_of_lt hlt, ?_, ?_, ?_⟩
      · intro p htouches hlast
        have hp := (htaken p).mpr ⟨htouches, hlast⟩
        obtain ⟨refs, hrefs⟩ := hmapped p hp.1 hp.2
        refine ⟨refs, hrefs, ?_⟩
        rw [getElem?_adjust, hrefs, Option.map_some, if_pos hp, Nat.add_sub_cancel]
      · intro p hp
        have hout := mt (htaken p).mp fun ⟨htouches, hlast⟩ => hp.elim (· htouches) hlast
        simp only [getElem?_adjust, if_neg hout, Option.map_id']
      · intro i hi
        exact Array.getElem?_setIfInBounds_ne (Ne.symm hi)

theorem reached_bothMapped : Reached (twoPages #[1, 1] {}) := by
  have hmap : (twoPages #[0, 0] {}).mmap {} ⟨0, 8192, 3, 1, 3, 0⟩ =
      .ok (.ok 0x100000, twoPages #[1, 1] {}, {}) := rfl
  exact .mmap (reached_twoPages {}) hmap

/-- As many bytes as a page has, from the middle of the first page on: the second page
keeps its mapping. -/
theorem munmap_releases_halfPages : Reached (twoPages #[1, 1] {}) ∧
    ∃ m' f f', (twoPages #[1, 1] {}).pmem = some 0 ∧
      (twoPages #[1, 1] {}).files[0]? = some f ∧ f.contents < maxAddress ∧
      f.contents ≤ 0x100800 ∧ 0x100800 + 4096 ≤ f.contents + f.size ∧
      (twoPages #[1, 1] {}).munmap {} 0x100800 4096 = .ok (.ok (), m', {}) ∧
      m'.files[0]? = some f' ∧ f.Touches 4096 0x100800 4096 0 ∧
      f.Touches 4096 0x100800 4096 1 ∧ f.Overhangs 4096 0x100800 4096 ∧
      f'.pageRefs[0]? = some 0 ∧ f'.pageRefs[1]? = some 1 := by
  have hunmap : (twoPages #[1, 1] {}).munmap {} 0x100800 4096 =
      .ok (.ok (), twoPages #[0, 1] { checked := [(0x100000, 4096)] }, {}) := rfl
  obtain ⟨f', hf', hreleased, hkept, -⟩ := munmap_releases reached_bothMapped rfl rfl
    (by decide) (by decide) (by decide) (by decide) hunmap
  have hfirst : (twoPages #[1, 1] {}).files[0].Touches 4096 0x100800 4096 0 :=
    ⟨0x100800, by decide⟩
  have hsecond : (twoPages #[1, 1] {}).files[0].Touches 4096 0x100800 4096 1 :=
    ⟨0x101000, by decide⟩
  have hoverhangs : (twoPages #[1, 1] {}).files[0].Overhangs 4096 0x100800 4096 := by decide
  obtain ⟨refs, hrefs, hfirstRefs⟩ := hreleased 0 hfirst (by decide)
  cases hrefs
  exact ⟨reached_bothMapped, _, _, f', rfl, rfl, by decide, by decide, by decide, hunmap, hf',
    hfirst, hsecond, hoverhangs, hfirstRefs, hkept 1 (.inr ⟨hoverhangs, rfl⟩)⟩

/-- An unmapping that succeeds can leave a page alone that shares an address with its
range. -/
theorem munmap_leavesLast :
    ¬ ∀ (m m' : MapModel RangeHost CheckLog) (mem mem' : MappedMemory) (id start length p : Nat)
      (f f' : MappedFile), Reached m → m.pmem = some id → m.files[id]? = some f →
        f.contents < maxAddress → 1 ≤ length → f.contents ≤ start →
        start + length ≤ f.contents + f.size →
        m.munmap mem start length = .ok (.ok (), m', mem') → m'.files[id]? = some f' →
        f.Touches m.pageSize start length p →
        f'.pageRefs[p]? = f.pageRefs[p]?.map (· - 1) := by
  intro h
  have hunmap : (twoPages #[1, 1] {}).munmap {} 0x100800 4096 =
      .ok (.ok (), twoPages #[0, 1] { checked := [(0x100000, 4096)] }, {}) := rfl
  have hrefs := h _ _ _ _ _ _ _ 1 _ _ reached_bothMapped rfl rfl (by decide) (by decide)
    (by decide) (by decide) hunmap rfl ⟨0x101000, by decide⟩
  simp [twoPages] at hrefs

end MapModel

end PmemPaths.Mapping
