import PmemPaths.Proofs.Mapping.Calls

/-!
# What failing calls leave behind

A call answers with a fault and leaves a model.  Most faults are found before anything
is done.  Three are not.  A call to map counts page by page and asks about each page
before it counts it, so a page that is not persistent memory stops it with the pages in
front counted.  A call to unmap takes mappings page by page and checks the pages that
are left without one, so a page without mappings, or one that is not persistent memory,
stops it in the same way.  And a call to unmap hands a range to the host after the pages
of the range were unbound, while a call to map asks the host first.

`MapFails` and `UnmapFails` list what can be left, and a failing call leaves nothing
else (`failing_calls_leave`).  So a failing call does not leave all as it was, not even
with a host that stays as it was (`failing_calls_change`).
-/

namespace PmemPaths.Mapping

/-- A host stays as it was when it refuses a call. -/
structure HostMapper.KeepsOnError (σ : Type) [HostMapper σ] : Prop where
  /-- When it refuses to map. -/
  mmap : ∀ (h h' : σ) (r : MapRequest) (e : Errno), HostMapper.mmap h r = (.error e, h') → h' = h
  /-- When it refuses to unmap. -/
  munmap : ∀ (h h' : σ) (start length : Nat) (e : Errno),
    HostMapper.munmap h start length = (.error e, h') → h' = h

theorem RangeHost.keepsOnError : HostMapper.KeepsOnError RangeHost where
  mmap := by
    intro h h' r e hmap
    change RangeHost.map h r = _ at hmap
    rw [RangeHost.map] at hmap
    split at hmap
    · cases hmap
      rfl
    · dsimp only at hmap
      split at hmap
      · cases hmap
        rfl
      · cases hmap
  munmap := by
    intro h h' start length e hunmap
    change RangeHost.unmap h start length = _ at hunmap
    rw [RangeHost.unmap] at hunmap
    split at hunmap
    · cases hunmap
      rfl
    · cases hunmap

namespace MapModel

open MappedFile

variable {σ κ : Type} [PersistenceChecker κ]

/-- What a failing call to map leaves behind. -/
inductive MapFails (m : MapModel σ κ) (r : MapRequest) : Fault → MapModel σ κ → Prop
  /-- All is as before. -/
  | unchanged {fault : Fault} : MapFails m r fault m
  /-- A page is not persistent memory, and each page of the range in front of it has one
  mapping more. -/
  | notPmem {id k : Nat} {f : MappedFile} : m.pmem = some id → m.files[id]? = some f →
      k < divUp r.length m.pageSize →
      MapFails m r (.fatal (.notPmem (r.offset.toNat / m.pageSize + k)))
        { m with
          files := m.files.setIfInBounds id
            (f.adjust (· + 1) (r.offset.toNat / m.pageSize) k) }

/-- What a failing call to unmap leaves behind. -/
inductive UnmapFails (m : MapModel σ κ) (mem : MappedMemory) (start length : Nat) :
    Fault → MapModel σ κ → MappedMemory → Prop
  /-- All is as before. -/
  | unchanged {fault : Fault} : UnmapFails m mem start length fault m mem
  /-- The host refuses, and the pages of the range are unbound. -/
  | hostRefused {e : Errno} : m.overlapped? start length = .ok none →
      UnmapFails m mem start length (.errno e) m
        { mem with space := m.unbindPages start length mem.space }
  /-- A page has no mapping.  Each page of the range in front of it has one mapping less,
  and was checked if that was its last one. -/
  | zeroRefCount {id k first : Nat} {f : MappedFile} :
      m.overlapped? start length = .ok (some (id, f)) →
      first = (start - f.contents) / m.pageSize → k < divUp length m.pageSize →
      f.pageRefs[first + k]? = some 0 →
      UnmapFails m mem start length (.fatal (.zeroRefCount (first + k)))
        { m with
          files := m.files.setIfInBounds id (f.adjust (· - 1) first k)
          checker := f.checkPages m.pageSize m.checker (f.lastPages first k) } mem
  /-- A page with one mapping is not persistent memory, and loses its mapping.  Each page
  of the range in front of it has one mapping less, and was checked if that was its last
  one. -/
  | notPmem {id k first : Nat} {f : MappedFile} :
      m.overlapped? start length = .ok (some (id, f)) →
      first = (start - f.contents) / m.pageSize → k < divUp length m.pageSize →
      f.pageRefs[first + k]? = some 1 →
      UnmapFails m mem start length (.fatal (.notPmem (first + k)))
        { m with
          files := m.files.setIfInBounds id (f.adjust (· - 1) first (k + 1))
          checker := f.checkPages m.pageSize m.checker (f.lastPages first k) } mem

variable [HostMapper σ] {m m' : MapModel σ κ} {mem mem' : MappedMemory} {fault : Fault}

theorem mmap_fails (hkeeps : HostMapper.KeepsOnError σ) {r : MapRequest}
    (h : m.mmap mem r = .ok (.error fault, m', mem')) : MapFails m r fault m' ∧ mem' = mem := by
  generalize hanswer : Except.error fault = answer at h
  cases mmap_run h with
  | refused =>
    cases hanswer
    exact ⟨.unchanged, rfl⟩
  | hostRefused hhost =>
    cases hanswer
    cases hkeeps.mmap _ _ _ _ hhost
    exact ⟨.unchanged, rfl⟩
  | byHost => cases hanswer
  | counted _ hid hf hcounted =>
    cases hcounted with
    | all => cases hanswer
    | notPmem hk =>
      cases hanswer
      exact ⟨.notPmem hid hf hk, rfl⟩

theorem munmap_fails (hkeeps : HostMapper.KeepsOnError σ) {start length : Nat}
    (h : m.munmap mem start length = .ok (.error fault, m', mem')) :
    UnmapFails m mem start length fault m' mem' := by
  generalize hanswer : Except.error fault = answer at h
  cases munmap_run h with
  | refused =>
    cases hanswer
    exact .unchanged
  | @byHost _ result hoverlapped hhost =>
    cases result with
    | ok _ => cases hanswer
    | error e =>
      cases hanswer
      cases hkeeps.munmap _ _ _ _ _ hhost
      exact .hostRefused hoverlapped
  | uncounted hoverlapped huncounted =>
    cases huncounted with
    | all => cases hanswer
    | zeroRefCount hk hzero =>
      cases hanswer
      exact .zeroRefCount hoverlapped rfl hk hzero
    | notPmem hk hone =>
      cases hanswer
      exact .notPmem hoverlapped rfl hk hone

/-- With a host that stays as it was when it refuses, a call that fails leaves all as it
was, or stopped inside its walk over pages, or unbound the pages of a range that the host
then refused to unmap. -/
theorem failing_calls_leave (hkeeps : HostMapper.KeepsOnError σ) (m : MapModel σ κ)
    (mem : MappedMemory) :
    (∀ r fault m' mem', m.mmap mem r = .ok (.error fault, m', mem') →
      MapFails m r fault m' ∧ mem' = mem) ∧
    (∀ r fault m' mem', m.mmap64 mem r = .ok (.error fault, m', mem') →
      MapFails m r fault m' ∧ mem' = mem) ∧
    (∀ start length fault m' mem', m.munmap mem start length = .ok (.error fault, m', mem') →
      UnmapFails m mem start length fault m' mem') := by
  refine ⟨?_, ?_, ?_⟩
  · intro r fault m' mem' h
    exact mmap_fails hkeeps h
  · intro r fault m' mem' h
    exact mmap_fails hkeeps h
  · intro start length fault m' mem' h
    exact munmap_fails hkeeps h

/-- The second of two pages has no mapping, so unmapping both takes the only mapping of
the first, checks it, and fails. -/
theorem failing_calls_leave_secondUnmapped :
    HostMapper.KeepsOnError RangeHost ∧
    (twoPages #[1, 0] {}).munmap {} 0x100000 8192 =
      .ok (.error (.fatal (.zeroRefCount 1)),
        twoPages #[0, 0] { checked := [(0x100000, 4096)] }, {}) ∧
    UnmapFails (twoPages #[1, 0] {}) {} 0x100000 8192 (.fatal (.zeroRefCount 1))
      (twoPages #[0, 0] { checked := [(0x100000, 4096)] }) {} := by
  have hunmap : (twoPages #[1, 0] {}).munmap {} 0x100000 8192 =
      .ok (.error (.fatal (.zeroRefCount 1)),
        twoPages #[0, 0] { checked := [(0x100000, 4096)] }, {}) := rfl
  exact ⟨RangeHost.keepsOnError, hunmap,
    (failing_calls_leave RangeHost.keepsOnError _ _).2.2 _ _ _ _ _ hunmap⟩

/-! ## Not all stays as it was -/

/-- A page of host memory. -/
def zeroPage : Memory.Contents := ⟨.replicate 4096 (.mkConstant () 0 Symbolic.byteWidth), false⟩

/-- Memory with a page of a host whose pages are twice as large as those of the model. -/
def largePage : MappedMemory where
  space := (Memory.AddressSpace.bind {} (.fixed ⟨1⟩ 0x7f0000000000 4096) zeroPage).bind
    (.fixed ⟨2⟩ 0x7f0000001000 4096) zeroPage
  supply := ⟨3⟩

/-- The model that has mapped it. -/
def largePageModel : MapModel RangeHost CheckLog where
  pageSize := 4096
  host := {
    pageSize := 8192
    next := 0x7f0000002000
    mappings := (∅ : Std.ExtTreeMap Nat Nat).insert 0x7f0000000000 8192 }
  checker := {}

/-- The host hands out one page, and the model binds two objects for it. -/
theorem mmap_largePage :
    mmap
      { pageSize := 4096, host := ({ pageSize := 8192 } : RangeHost), checker := ({} : CheckLog) }
      {} ⟨0, 8192, 3, 0x22, -1, 0⟩ = .ok (.ok 0x7f0000000000, largePageModel, largePage) := by
  -- The page is given by name, so that its bytes are not written out one by one.
  have hzero : Memory.Contents.zero 4096 = .ok zeroPage := if_neg (by decide)
  have hbound : bindPages 4096 2 0x7f0000000000 {} = .ok largePage := by
    simp only [bindPages, Memory.AddressSpace.defineFixed, hzero]
    rfl
  change (bindPages 4096 2 0x7f0000000000 {} >>= fun mem => _) = _
  rw [hbound]
  rfl

theorem reached_largePageModel : Reached largePageModel := by
  have hpower : Config.isPowerOfTwo 4096 = true := by decide
  exact .mmap (.create (if_pos hpower)) mmap_largePage

/-- A failing call to map can leave pages counted, and a failing call to unmap can leave
objects unbound. -/
theorem failing_calls_change : HostMapper.KeepsOnError RangeHost ∧
    (¬ ∀ (m m' : MapModel RangeHost CheckLog) (mem mem' : MappedMemory) (r : MapRequest)
      (fault : Fault), Reached m → m.mmap mem r = .ok (.error fault, m', mem') →
        m'.files.map (·.pageRefs) = m.files.map (·.pageRefs)) ∧
    ¬ ∀ (m m' : MapModel RangeHost CheckLog) (mem mem' : MappedMemory) (start length : Nat)
      (fault : Fault), Reached m → m.munmap mem start length = .ok (.error fault, m', mem') →
        mem'.space.size = mem.space.size := by
  refine ⟨RangeHost.keepsOnError, ?_, ?_⟩
  · intro h
    -- The second page is not persistent memory.
    have hmap : (twoPages #[0, 0] { volatile := [0x101000] }).mmap {} ⟨0, 8192, 3, 1, 3, 0⟩ =
        .ok (.error (.fatal (.notPmem 1)), twoPages #[1, 0] { volatile := [0x101000] }, {}) := rfl
    have hrefs := h _ _ _ _ _ _ (reached_twoPages _) hmap
    simp [twoPages] at hrefs
  · intro h
    -- The second object of the model starts in the middle of a page of the host.
    have hunmap : largePageModel.munmap largePage 0x7f0000001000 4096 =
        .ok (.error (.errno .invalid), largePageModel, { largePage with
          space := largePageModel.unbindPages 0x7f0000001000 4096 largePage.space }) := rfl
    have hsize := h _ _ _ _ _ _ _ reached_largePageModel hunmap
    exact absurd hsize (by decide +kernel)

end MapModel

end PmemPaths.Mapping
