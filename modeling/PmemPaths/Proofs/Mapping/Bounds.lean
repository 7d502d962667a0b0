import PmemPaths.Proofs.Mapping.Calls

/-!
# Arguments of calls stay in bounds

A program chooses the arguments of its calls.  Where every file ends below the last
address and no page has the most mappings that can be counted, no choice makes a call
abort: no sum of addresses leaves its range, no page behind a file is looked up, and no
count is too high (`Reached.staysInBounds`).

The offset of a mapping and its length are rounded apart, and so are the pages of a
file.  They fit since what is rounded down and what is rounded up make no more pages
than their sum rounded up (`div_add_divUp_le`).
-/

namespace PmemPaths.Mapping

/-! ## Whole pages -/

section

variable {a b d n p : Nat}

/-- A page is counted if it starts before the end. -/
theorem lt_divUp (hd : 0 < d) : p < divUp n d ↔ p * d < n := by
  rw [divUp, Nat.lt_iff_add_one_le, Nat.le_div_iff_mul_le hd, Nat.add_one_mul]
  omega

theorem le_divUp_mul (hd : 0 < d) : n ≤ divUp n d * d := by
  rw [← Nat.not_lt, ← lt_divUp hd]
  exact Nat.lt_irrefl _

theorem divUp_le_divUp (h : a ≤ b) : divUp a d ≤ divUp b d := by
  apply Nat.div_le_div_right
  omega

theorem divUp_le_self (hd : 0 < d) : divUp n d ≤ n := by
  rw [← Nat.not_lt, lt_divUp hd, Nat.not_lt]
  exact Nat.le_mul_of_pos_right n hd

/-- What is rounded down and what is rounded up make no more pages than their sum. -/
theorem div_add_divUp_le (hd : 0 < d) : a / d + divUp b d ≤ divUp (a + b) d := by
  rw [divUp, divUp, Nat.le_div_iff_mul_le hd, Nat.add_mul]
  have ha := Nat.div_mul_le_self a d
  have hb := Nat.div_mul_le_self (b + d - 1) d
  omega

end

namespace MapModel

open MappedFile

variable {σ κ : Type} {m m' : MapModel σ κ} {mem mem' : MappedMemory} {f : MappedFile}
  {id start length offset : Nat}

/-- Pages have bytes, and each page of a file is counted. -/
structure WellFormed (m : MapModel σ κ) : Prop where
  /-- Pages have bytes. -/
  pageSize_pos : 0 < m.pageSize
  /-- Each page of a file is counted. -/
  pages : ∀ f ∈ m.files, f.pageRefs.size = divUp f.size m.pageSize

theorem unmapped_pages {name : String} {contents size pageSize : Nat} {isPersistent : Bool}
    (h : MappedFile.unmapped name contents size pageSize isPersistent = .ok f) :
    f.pageRefs.size = divUp f.size pageSize := by
  rw [unmapped_run h]
  exact Array.size_replicate

namespace WellFormed

theorem push (h : m.WellFormed) (hf : f.pageRefs.size = divUp f.size m.pageSize)
    {fds : Std.ExtTreeMap Int OpenFile} {pmem : Option Nat} :
    WellFormed { m with files := m.files.push f, fds, pmem } where
  pageSize_pos := h.pageSize_pos
  pages := by
    intro g hg
    rw [Array.mem_push] at hg
    cases hg with
    | inl hg => exact h.pages g hg
    | inr hg =>
      cases hg
      exact hf

theorem adjust (h : m.WellFormed) (hf : m.files[id]? = some f) {g : Nat → Nat} {first n : Nat}
    {checker : κ} :
    WellFormed { m with files := m.files.setIfInBounds id (f.adjust g first n), checker } where
  pageSize_pos := h.pageSize_pos
  pages := by
    intro f' hf'
    cases Array.mem_or_eq_of_mem_setIfInBounds hf' with
    | inl hold => exact h.pages f' hold
    | inr hnew =>
      cases hnew
      rw [size_pageRefs_adjust, size_adjust]
      exact h.pages f (Array.mem_of_getElem? hf)

end WellFormed

section Reached

variable [HostMapper σ] [PersistenceChecker κ]

theorem WellFormed.mmap {r : MapRequest} {result : Except Fault Nat} (h : m.WellFormed)
    (hmap : m.mmap mem r = .ok (result, m', mem')) : m'.WellFormed := by
  cases mmap_run hmap with
  | refused => exact h
  | hostRefused => exact ⟨h.pageSize_pos, h.pages⟩
  | byHost => exact ⟨h.pageSize_pos, h.pages⟩
  | counted _ _ hf hcounted =>
    obtain ⟨k, rfl⟩ := hcounted.eq_adjust
    exact h.adjust hf

theorem WellFormed.munmap {result : Except Fault Unit} (h : m.WellFormed)
    (hunmap : m.munmap mem start length = .ok (result, m', mem')) : m'.WellFormed := by
  cases munmap_run hunmap with
  | refused => exact h
  | byHost => exact ⟨h.pageSize_pos, h.pages⟩
  | uncounted hoverlapped huncounted =>
    obtain ⟨-, hf, -⟩ := overlapped?_eq_some hoverlapped
    obtain ⟨k, rfl⟩ := huncounted.eq_adjust
    exact h.adjust hf

/-- Wherever calls lead, each page of a file is counted, by induction on the calls. -/
theorem Reached.wellFormed (h : Reached m) : m.WellFormed := by
  induction h with
  | @create pageSize _ _ _ hcreate =>
    rw [MapModel.create] at hcreate
    split at hcreate
    · next hpower =>
      cases hcreate
      rw [Config.isPowerOfTwo, decide_eq_true_eq] at hpower
      refine ⟨?_, by simp⟩
      show 0 < pageSize
      rw [← hpower]
      exact Nat.two_pow_pos _
    · cases hcreate
  | openPmemFile _ hopen ih =>
    obtain ⟨f, fds, hf, rfl⟩ := openPmemFile_run hopen
    exact ih.push (unmapped_pages hf)
  | openSymbolicFile _ hopen ih =>
    obtain ⟨f, fds, hf, rfl⟩ := openSymbolicFile_run hopen
    exact ih.push (unmapped_pages hf)
  | openHostFile _ ih => exact ⟨ih.pageSize_pos, ih.pages⟩
  | close _ ih =>
    rw [MapModel.close]
    split
    · exact ⟨ih.pageSize_pos, ih.pages⟩
    · exact ih
  | mmap _ hmap ih => exact ih.mmap hmap
  | mmap64 _ hmap ih => exact ih.mmap hmap
  | munmap _ hunmap ih => exact ih.munmap hunmap
  | checker _ ih => exact ⟨ih.pageSize_pos, ih.pages⟩

end Reached

/-! ## Pages of a file -/

/-- A page of a file lies in front of the end of the file. -/
theorem WellFormed.page_lt (h : m.WellFormed) (hf : f ∈ m.files) {p : Nat}
    (hp : p < f.pageRefs.size) : f.contents + p * m.pageSize < f.contents + f.size := by
  rw [h.pages f hf, lt_divUp h.pageSize_pos] at hp
  omega

theorem WellFormed.size_pageRefs_le (h : m.WellFormed) (hf : f ∈ m.files) :
    f.pageRefs.size ≤ f.size := by
  rw [h.pages f hf]
  exact divUp_le_self h.pageSize_pos

/-- The pages of a range inside a file are pages of the file. -/
theorem WellFormed.pages_le (h : m.WellFormed) (hf : f ∈ m.files)
    (hstop : offset + length ≤ f.size) :
    offset / m.pageSize + divUp length m.pageSize ≤ f.pageRefs.size := by
  rw [h.pages f hf]
  exact Nat.le_trans (div_add_divUp_le h.pageSize_pos) (divUp_le_divUp hstop)

/-- A page of a range lies in front of the last address. -/
theorem WellFormed.pageOf_lt (h : m.WellFormed) {i : Nat} (hi : i < m.pageCount start length) :
    start + i * m.pageSize < maxAddress := by
  rw [pageCount, lt_divUp h.pageSize_pos, rangeEnd] at hi
  omega

/-! ## Mapping -/

/-- Binding pages fails only where a page is larger than contents can be. -/
theorem bindPages_total (n address : Nat) (mem : MappedMemory) (pageSize : Nat) :
    (∃ x, bindPages pageSize n address mem = .ok x) ∨
      bindPages pageSize n address mem = .error .noRoom ∧ Memory.Contents.maxSize < pageSize := by
  induction n generalizing address mem with
  | zero => exact .inl ⟨_, rfl⟩
  | succ n ih =>
    by_cases hsize : Memory.Contents.maxSize < pageSize
    · have hzero : Memory.Contents.zero pageSize = .error .noRoom := if_pos hsize
      refine .inr ⟨?_, hsize⟩
      simp only [bindPages, Memory.AddressSpace.defineFixed, hzero]
      rfl
    · obtain ⟨c, hzero⟩ : ∃ c, Memory.Contents.zero pageSize = .ok c := ⟨_, if_neg hsize⟩
      simp only [bindPages, Memory.AddressSpace.defineFixed, hzero]
      exact ih _ _

variable [PersistenceChecker κ]

theorem WellFormed.mapPages_total (h : m.WellFormed) (hf : f ∈ m.files)
    (hend : f.contents + f.size ≤ maxAddress) (hrefs : ∀ n ∈ f.pageRefs, n < maxRefs)
    (hstop : offset + length ≤ f.size) :
    ∃ x, m.mapPages id f (divUp length m.pageSize) offset = .ok x := by
  have hpages := h.pages_le hf hstop
  have hsize := h.size_pageRefs_le hf
  rw [mapPages]
  dsimp only
  rw [if_neg (by omega)]
  obtain ⟨⟨walked, f'⟩, hwalk⟩ := exists_countPages (c := m.checker) hpages
    (fun p hp => Nat.le_trans (Nat.le_of_lt (h.page_lt hf hp)) hend)
    (fun p refs _ hget => hrefs refs (Array.mem_of_getElem? hget))
  rw [hwalk]
  cases walked with
  | error e => exact ⟨_, rfl⟩
  | ok _ =>
    obtain ⟨k, rfl⟩ := (countPages_counted hwalk).eq_adjust
    have haddress : addressOf (f.contents + offset) = .ok (f.contents + offset) :=
      if_pos (by omega)
    show ∃ x, (addressOf (f.contents + offset) >>= _) = Except.ok x
    rw [haddress]
    exact ⟨_, rfl⟩

theorem WellFormed.mmapFile_total (h : m.WellFormed)
    (hfits : ∀ f ∈ m.files, f.contents + f.size < maxAddress)
    (hrefs : ∀ f ∈ m.files, ∀ n ∈ f.pageRefs, n < maxRefs) :
    ∃ x, m.mmapFile id length offset = .ok x := by
  rw [mmapFile]
  split
  · exact ⟨_, rfl⟩
  split
  · exact ⟨_, rfl⟩
  · exact ⟨_, rfl⟩
  · next rounded f hrounded hget =>
    have hf : f ∈ m.files := Array.mem_of_getElem? hget
    have hend := hfits f hf
    dsimp only
    split
    · exact ⟨_, rfl⟩
    split
    · exact ⟨_, rfl⟩
    split
    · exact ⟨_, rfl⟩
    · next hstop =>
      -- The file ends below the last address, so the range does not end at it.
      rw [rangeEnd] at hstop
      have hfit : offset + rounded ≤ f.size := by omega
      have hrounded := roundUp?_eq_some hrounded
      have hlength := le_divUp_mul (n := length) h.pageSize_pos
      rw [hrounded, divUp_mul_div]
      exact h.mapPages_total hf (Nat.le_of_lt hend) (hrefs f hf) (by omega)

omit [PersistenceChecker κ] in
theorem mmapHost_total [HostMapper σ] (m : MapModel σ κ) (mem : MappedMemory) (r : MapRequest) :
    (∃ x, m.mmapHost mem r = .ok x) ∨
      m.mmapHost mem r = .error .noRoom ∧ Memory.Contents.maxSize < m.pageSize := by
  rw [mmapHost]
  dsimp only
  split
  · exact .inl ⟨_, rfl⟩
  · next address _ =>
    have hbound := bindPages_total
      (pageCount { m with host := (HostMapper.mmap m.host r).2 } address r.length)
      address mem m.pageSize
    cases hbound with
    | inl hbound =>
      obtain ⟨x, hbound⟩ := hbound
      rw [hbound]
      exact .inl ⟨_, rfl⟩
    | inr hbound =>
      rw [hbound.1]
      exact .inr ⟨rfl, hbound.2⟩

/-- A call to map has a result, unless a page is larger than contents can be. -/
theorem WellFormed.mmap_total [HostMapper σ] (h : m.WellFormed)
    (hfits : ∀ f ∈ m.files, f.contents + f.size < maxAddress)
    (hrefs : ∀ f ∈ m.files, ∀ n ∈ f.pageRefs, n < maxRefs) (mem : MappedMemory) (r : MapRequest) :
    (∃ x, m.mmap mem r = .ok x) ∨
      m.mmap mem r = .error .noRoom ∧ Memory.Contents.maxSize < m.pageSize := by
  rw [MapModel.mmap]
  split
  · exact .inl ⟨_, rfl⟩
  split
  · exact mmapHost_total m mem r
  split
  · exact .inl ⟨_, rfl⟩
  · exact mmapHost_total m mem _
  · next id _ =>
    obtain ⟨x, hx⟩ : ∃ x, m.mmapFile id r.length r.offset.toNat = .ok x :=
      h.mmapFile_total hfits hrefs
    rw [hx]
    exact .inl ⟨_, rfl⟩

/-! ## Unmapping -/

omit [PersistenceChecker κ] in
/-- No file ends behind the last address, so a range can be compared with it. -/
theorem overlapped?_total (hfits : ∀ f ∈ m.files, f.contents + f.size < maxAddress)
    (start length : Nat) : ∃ x, m.overlapped? start length = .ok x := by
  rw [overlapped?]
  split
  · next id f hid hpmem =>
    rw [pmemFile?, hid] at hpmem
    have hend := hfits f (Array.mem_of_getElem? hpmem)
    have hstop : f.stop = .ok (f.contents + f.size) := if_pos (Nat.le_of_lt hend)
    rw [overlaps, hstop]
    split
    · exact ⟨_, rfl⟩
    · exact ⟨_, rfl⟩
  · exact ⟨_, rfl⟩

theorem WellFormed.munmapFile_total (h : m.WellFormed) (hf : f ∈ m.files)
    (hend : f.contents + f.size < maxAddress) : ∃ x, m.munmapFile id f start length = .ok x := by
  have hstop : f.stop = .ok (f.contents + f.size) := if_pos (Nat.le_of_lt hend)
  rw [munmapFile, encloses, hstop]
  by_cases hstart : f.contents ≤ start
  · rw [if_pos hstart]
    show ∃ x, (if (!decide (rangeEnd start length ≤ f.contents + f.size)) = true then _ else _) =
      Except.ok x
    split
    · exact ⟨_, rfl⟩
    · next hinside =>
      -- The file ends below the last address, so the range does not end at it.
      have hfit : start - f.contents + length ≤ f.size := by
        have hrange : rangeEnd start length ≤ f.contents + f.size := by simpa using hinside
        rw [rangeEnd] at hrange
        omega
      have hpages := h.pages_le hf hfit
      have hsize := h.size_pageRefs_le hf
      obtain ⟨x, hwalk⟩ := exists_uncountPages (c := m.checker) hpages
        (fun p hp => Nat.le_of_lt (Nat.lt_trans (h.page_lt hf hp) hend))
      dsimp only
      rw [if_neg (by omega), hwalk]
      exact ⟨_, rfl⟩
  · rw [if_neg hstart]
    exact ⟨_, rfl⟩

theorem WellFormed.munmap_total [HostMapper σ] (h : m.WellFormed)
    (hfits : ∀ f ∈ m.files, f.contents + f.size < maxAddress) (mem : MappedMemory)
    (start length : Nat) : ∃ x, m.munmap mem start length = .ok x := by
  obtain ⟨overlapped, hoverlapped⟩ := overlapped?_total hfits start length
  rw [MapModel.munmap, hoverlapped]
  cases overlapped with
  | none => exact ⟨_, rfl⟩
  | some file =>
    obtain ⟨id, f⟩ := file
    obtain ⟨-, hget, -⟩ := overlapped?_eq_some hoverlapped
    have hf : f ∈ m.files := Array.mem_of_getElem? hget
    obtain ⟨x, hx⟩ : ∃ x, m.munmapFile id f start length = .ok x :=
      h.munmapFile_total hf (hfits f hf)
    show ∃ x, (m.munmapFile id f start length >>= _) = Except.ok x
    rw [hx]
    exact ⟨_, rfl⟩

/-- No argument of a call breaks a reached model whose files end below the last address
and whose pages have fewer mappings than can be counted: a call does not abort, except
where the host's pages are larger than what memory can hold, and each page of a file and
each page of a range starts below the last address. -/
theorem Reached.staysInBounds [HostMapper σ] (hm : Reached m)
    (hfits : ∀ f ∈ m.files, f.contents + f.size < maxAddress)
    (hrefs : ∀ f ∈ m.files, ∀ n ∈ f.pageRefs, n < maxRefs) :
    (∀ mem r, (∃ x, m.mmap mem r = .ok x) ∨
      m.mmap mem r = .error .noRoom ∧ Memory.Contents.maxSize < m.pageSize) ∧
    (∀ mem r, (∃ x, m.mmap64 mem r = .ok x) ∨
      m.mmap64 mem r = .error .noRoom ∧ Memory.Contents.maxSize < m.pageSize) ∧
    (∀ mem start length, ∃ x, m.munmap mem start length = .ok x) ∧
    (∀ f ∈ m.files, ∀ p < f.pageRefs.size, f.contents + p * m.pageSize < maxAddress) ∧
    ∀ start length, ∀ i < m.pageCount start length, start + i * m.pageSize < maxAddress := by
  have h := hm.wellFormed
  have hmmap := h.mmap_total hfits hrefs
  refine ⟨hmmap, hmmap, h.munmap_total hfits, ?_, ?_⟩
  · intro f hf p hp
    exact Nat.lt_trans (h.page_lt hf hp) (hfits f hf)
  · intro start length i hi
    exact h.pageOf_lt hi

/-- A mapping of all addresses and an unmapping of the last one, on a file of two pages. -/
theorem Reached.staysInBounds_twoPages :
    Reached (twoPages #[0, 0] {}) ∧
    (∀ f ∈ (twoPages #[0, 0] {}).files, f.contents + f.size < maxAddress) ∧
    (∀ f ∈ (twoPages #[0, 0] {}).files, ∀ n ∈ f.pageRefs, n < maxRefs) ∧
    ((∃ x, (twoPages #[0, 0] {}).mmap {} ⟨0, maxAddress, 3, 1, 3, 4096⟩ = .ok x) ∨
      (twoPages #[0, 0] {}).mmap {} ⟨0, maxAddress, 3, 1, 3, 4096⟩ = .error .noRoom ∧
        Memory.Contents.maxSize < 4096) ∧
    ∃ x, (twoPages #[0, 0] {}).munmap {} maxAddress maxAddress = .ok x := by
  have hfits : ∀ f ∈ (twoPages #[0, 0] {}).files, f.contents + f.size < maxAddress := by
    simp [twoPages, maxAddress]
  have hrefs : ∀ f ∈ (twoPages #[0, 0] {}).files, ∀ n ∈ f.pageRefs, n < maxRefs := by
    simp [twoPages, maxRefs]
  obtain ⟨hmmap, -, hmunmap, -⟩ := Reached.staysInBounds (reached_twoPages {}) hfits hrefs
  exact ⟨reached_twoPages {}, hfits, hrefs, hmmap _ _, hmunmap _ _ _⟩

end MapModel

end PmemPaths.Mapping
