import PmemPaths.Proofs.Mapping.Walks

/-!
# What mapping calls do

A call that maps or unmaps ends in one of a few ways.  `Mapped` and `Unmapped` name
them: the call is refused and nothing happens, the host does it, or pages of the
persistent file are walked.  Every fact about calls is read off these, and no other
module looks into the calls.
-/

namespace PmemPaths.Mapping

/-- A length that was rounded up to whole pages has the pages it was rounded up to. -/
theorem divUp_mul_div (n d : Nat) : divUp n d * d / d = divUp n d := by
  cases d with
  | zero => simp [divUp]
  | succ d => exact Nat.mul_div_cancel _ (Nat.succ_pos d)

/-- A number is an address unless it lies above the last one. -/
theorem addressOf_eq_ok {n address : Nat} :
    addressOf n = .ok address ↔ n ≤ maxAddress ∧ address = n := by
  rw [addressOf]
  split
  · next h => simp [h, eq_comm]
  · next h => simp [h]

namespace MapModel

open MappedFile

variable {σ κ : Type} {m m' : MapModel σ κ} {mem mem' : MappedMemory} {r : MapRequest}
  {id start length offset : Nat} {f : MappedFile}

/-- The request is for pages of the persistent file. -/
def mapsPages (m : MapModel σ κ) (r : MapRequest) : Bool :=
  !isAnonymous r.flags && m.mapsPersistent r.fd

theorem roundUp?_eq_some {rounded : Nat} (h : m.roundUp? length = some rounded) :
    rounded = divUp length m.pageSize * m.pageSize := by
  rw [roundUp?] at h
  split at h
  · cases h
    rfl
  · cases h

/-! ## Opening -/

/-- A file is opened without mappings, with a count for each page that it has a byte of. -/
theorem unmapped_run {name : String} {contents size pageSize : Nat} {isPersistent : Bool}
    (h : MappedFile.unmapped name contents size pageSize isPersistent = .ok f) :
    f = { name, contents, size, isPersistent, pageRefs := .replicate (divUp size pageSize) 0 } := by
  rw [MappedFile.unmapped] at h
  split at h
  · cases h
  · dsimp only at h
    split at h
    · cases h
    · cases h
      rfl

theorem openSymbolicFile_run {name : String} {contents size : Nat} {fd : Int}
    (h : m.openSymbolicFile name contents size = .ok (m', fd)) :
    ∃ f fds, MappedFile.unmapped name contents size m.pageSize false = .ok f ∧
      m' = { m with files := m.files.push f, fds } := by
  rw [openSymbolicFile] at h
  obtain ⟨f, hf, h⟩ := bind_eq_ok.mp h
  cases h
  exact ⟨f, _, hf, rfl⟩

theorem openPmemFile_run {name : String} {contents size : Nat} {fd : Int}
    (h : m.openPmemFile name contents size = .ok (m', fd)) :
    ∃ f fds, MappedFile.unmapped name contents size m.pageSize true = .ok f ∧
      m' = { m with files := m.files.push f, fds, pmem := some m.files.size } := by
  rw [openPmemFile] at h
  obtain ⟨f, hf, h⟩ := bind_eq_ok.mp h
  cases h
  exact ⟨f, _, hf, rfl⟩

/-! ## Mapping -/

section Map

variable [PersistenceChecker κ]

/-- Pages are walked from the one at the offset on, and what stops the walk is the answer. -/
theorem mapPages_run {pages : Nat} {result : Except Fault Nat}
    (h : m.mapPages id f pages offset = .ok (result, m')) :
    ∃ f' walked, Counted f (offset / m.pageSize) pages walked f' ∧
      result = walked.map (fun _ => f.contents + offset) ∧
      m' = { m with files := m.files.setIfInBounds id f' } := by
  rw [mapPages] at h
  dsimp only at h
  split at h
  · cases h
  · obtain ⟨⟨walked, f'⟩, hwalk, h⟩ := bind_eq_ok.mp h
    have hcounted := countPages_counted hwalk
    refine ⟨f', walked, hcounted, ?_⟩
    cases walked with
    | error e =>
      cases h
      exact ⟨rfl, rfl⟩
    | ok _ =>
      obtain ⟨address, haddress, h⟩ := bind_eq_ok.mp h
      cases h
      obtain ⟨k, rfl⟩ := hcounted.eq_adjust
      rw [(addressOf_eq_ok.mp haddress).2]
      exact ⟨rfl, rfl⟩

/-- How a call ends that maps a file or memory. -/
inductive Mapped [HostMapper σ] (m : MapModel σ κ) (mem : MappedMemory) (r : MapRequest) :
    Except Fault Nat → MapModel σ κ → MappedMemory → Prop
  /-- It is refused. -/
  | refused {fault : Fault} : Mapped m mem r (.error fault) m mem
  /-- The host refuses it. -/
  | hostRefused {fd : Int} {e : Errno} {host : σ} :
      HostMapper.mmap m.host { r with fd } = (.error e, host) →
      Mapped m mem r (.error (.errno e)) { m with host } mem
  /-- The host makes the mapping. -/
  | byHost {fd : Int} {address : Nat} {host : σ} {mem' : MappedMemory} : m.mapsPages r = false →
      HostMapper.mmap m.host { r with fd } = (.ok address, host) →
      bindPages m.pageSize (m.pageCount address r.length) address mem = .ok mem' →
      Mapped m mem r (.ok address) { m with host } mem'
  /-- Pages of the persistent file are counted. -/
  | counted {id : Nat} {f f' : MappedFile} {walked : Except Fault Unit} : m.mapsPages r = true →
      m.pmem = some id → m.files[id]? = some f →
      Counted f (r.offset.toNat / m.pageSize) (divUp r.length m.pageSize) walked f' →
      Mapped m mem r (walked.map fun _ => f.contents + r.offset.toNat)
        { m with files := m.files.setIfInBounds id f' } mem

variable [HostMapper σ] {result : Except Fault Nat}

omit [PersistenceChecker κ] in
theorem mmapHost_run {fd : Int} (hpages : m.mapsPages r = false)
    (h : m.mmapHost mem { r with fd } = .ok (result, m', mem')) :
    Mapped m mem r result m' mem' := by
  rw [mmapHost] at h
  dsimp only at h
  split at h
  · next e he =>
    cases h
    exact .hostRefused (Prod.ext he rfl)
  · next address haddress =>
    obtain ⟨bound, hbound, h⟩ := bind_eq_ok.mp h
    cases h
    exact .byHost hpages (Prod.ext haddress rfl) hbound

/-- Only the persistent file gets as far as the walk, with as many pages as the length has. -/
theorem mmapFile_run (hflags : isAnonymous r.flags = false) (hfd : m.fds[r.fd]? = some (.model id))
    (h : m.mmapFile id r.length r.offset.toNat = .ok (result, m')) :
    Mapped m mem r result m' mem := by
  rw [mmapFile] at h
  split at h
  · cases h
    exact .refused
  · next hid =>
    rw [Decidable.not_not] at hid
    split at h
    · cases h
      exact .refused
    · cases h
      exact .refused
    · next rounded f hrounded hf =>
      dsimp only at h
      split at h
      · cases h
        exact .refused
      split at h
      · cases h
        exact .refused
      split at h
      · cases h
        exact .refused
      rw [roundUp?_eq_some hrounded, divUp_mul_div] at h
      obtain ⟨f', walked, hcounted, rfl, rfl⟩ := mapPages_run h
      have hpages : m.mapsPages r = true := by simp [mapsPages, mapsPersistent, hfd, hid, hflags]
      exact .counted hpages hid hf hcounted

/-- A call to map ends in one of these ways. -/
theorem mmap_run (h : m.mmap mem r = .ok (result, m', mem')) : Mapped m mem r result m' mem' := by
  rw [mmap] at h
  split at h
  · cases h
    exact .refused
  · split at h
    · next hanonymous => exact mmapHost_run (by simp [mapsPages, hanonymous]) h
    · next hflags =>
      split at h
      · cases h
        exact .refused
      · next hfd => exact mmapHost_run (by simp [mapsPages, mapsPersistent, hfd]) h
      · next hfd =>
        obtain ⟨⟨answer, after⟩, hfile, h⟩ := bind_eq_ok.mp h
        cases h
        exact mmapFile_run (Bool.eq_false_iff.mpr hflags) hfd hfile

end Map

/-! ## Unmapping -/

/-- No file but the persistent one is found to overlap a range. -/
theorem overlapped?_eq_some (h : m.overlapped? start length = .ok (some (id, f))) :
    m.pmem = some id ∧ m.files[id]? = some f ∧ f.overlaps start length = .ok true := by
  rw [overlapped?] at h
  split at h
  · next i g hid hg =>
    obtain ⟨overlaps, hoverlaps, h⟩ := bind_eq_ok.mp h
    cases overlaps with
    | false => cases h
    | true =>
      cases h
      rw [pmemFile?, hid] at hg
      exact ⟨hid, hg, hoverlaps⟩
  · cases h

variable [PersistenceChecker κ]

/-- How a call ends that unmaps a range. -/
inductive Unmapped [HostMapper σ] (m : MapModel σ κ) (mem : MappedMemory) (start length : Nat) :
    Except Fault Unit → MapModel σ κ → MappedMemory → Prop
  /-- It is refused. -/
  | refused {fault : Fault} : Unmapped m mem start length (.error fault) m mem
  /-- The host is asked. -/
  | byHost {host : σ} {result : Except Errno Unit} : m.overlapped? start length = .ok none →
      HostMapper.munmap m.host start length = (result, host) →
      Unmapped m mem start length (result.mapError .errno) { m with host }
        { mem with space := m.unbindPages start length mem.space }
  /-- Pages of the persistent file lose a mapping. -/
  | uncounted {id : Nat} {f f' : MappedFile} {checker : κ} {walked : Except Fault Unit} :
      m.overlapped? start length = .ok (some (id, f)) →
      Uncounted m.pageSize f m.checker ((start - f.contents) / m.pageSize)
        (divUp length m.pageSize) walked f' checker →
      Unmapped m mem start length walked
        { m with files := m.files.setIfInBounds id f', checker } mem

/-- The walk starts at the page that the start lies in, and takes as many pages as the
length has. -/
theorem munmapFile_run [HostMapper σ] {result : Except Fault Unit}
    (hoverlapped : m.overlapped? start length = .ok (some (id, f)))
    (h : m.munmapFile id f start length = .ok (result, m')) :
    Unmapped m mem start length result m' mem := by
  rw [munmapFile] at h
  obtain ⟨encloses, -, h⟩ := bind_eq_ok.mp h
  cases encloses with
  | false =>
    cases h
    exact .refused
  | true =>
    dsimp only at h
    rw [if_neg (by decide)] at h
    split at h
    · cases h
    · obtain ⟨⟨walked, f', checker⟩, hwalk, h⟩ := bind_eq_ok.mp h
      cases h
      exact .uncounted hoverlapped (uncountPages_uncounted hwalk)

/-- A call to unmap ends in one of these ways. -/
theorem munmap_run [HostMapper σ] {result : Except Fault Unit}
    (h : m.munmap mem start length = .ok (result, m', mem')) :
    Unmapped m mem start length result m' mem' := by
  rw [munmap] at h
  obtain ⟨overlapped, hoverlapped, h⟩ := bind_eq_ok.mp h
  cases overlapped with
  | none =>
    cases h
    exact .byHost hoverlapped rfl
  | some x =>
    obtain ⟨id, f⟩ := x
    obtain ⟨⟨answer, after⟩, hfile, h⟩ := bind_eq_ok.mp h
    cases h
    exact munmapFile_run hoverlapped hfile

/-! ## Reached models -/

/-- The models that calls lead to.  What the checker knows may change between calls. -/
inductive Reached [HostMapper σ] : MapModel σ κ → Prop
  | create {pageSize : Nat} {host : σ} {checker : κ} {m : MapModel σ κ} :
      create pageSize host checker = .ok m → Reached m
  | openPmemFile {m m' : MapModel σ κ} {name : String} {contents size : Nat} {fd : Int} :
      Reached m → m.openPmemFile name contents size = .ok (m', fd) → Reached m'
  | openSymbolicFile {m m' : MapModel σ κ} {name : String} {contents size : Nat} {fd : Int} :
      Reached m → m.openSymbolicFile name contents size = .ok (m', fd) → Reached m'
  | openHostFile {m : MapModel σ κ} {hostFd : Int} : Reached m → Reached (m.openHostFile hostFd).1
  | close {m : MapModel σ κ} {fd : Int} : Reached m → Reached (m.close fd).2
  | mmap {m m' : MapModel σ κ} {mem mem' : MappedMemory} {r : MapRequest}
      {result : Except Fault Nat} :
      Reached m → m.mmap mem r = .ok (result, m', mem') → Reached m'
  | mmap64 {m m' : MapModel σ κ} {mem mem' : MappedMemory} {r : MapRequest}
      {result : Except Fault Nat} :
      Reached m → m.mmap64 mem r = .ok (result, m', mem') → Reached m'
  | munmap {m m' : MapModel σ κ} {mem mem' : MappedMemory} {start length : Nat}
      {result : Except Fault Unit} :
      Reached m → m.munmap mem start length = .ok (result, m', mem') → Reached m'
  | checker {m : MapModel σ κ} {checker : κ} : Reached m → Reached { m with checker }

/-- A model with a file of persistent memory that has two pages. -/
def twoPages (refs : Array Nat) (checker : CheckLog) : MapModel RangeHost CheckLog where
  pageSize := 4096
  files := #[{
    name := "pmem"
    contents := 0x100000
    size := 8192
    isPersistent := true
    pageRefs := refs }]
  fds := (∅ : Std.ExtTreeMap Int OpenFile).insert 3 (.model 0)
  pmem := some 0
  host := { pageSize := 4096 }
  checker := checker

theorem openPmemFile_twoPages (checker : CheckLog) :
    openPmemFile { pageSize := 4096, host := ({ pageSize := 4096 } : RangeHost), checker }
      "pmem" 0x100000 8192 = .ok (twoPages #[0, 0] checker, 3) := by
  have hf : MappedFile.unmapped "pmem" 0x100000 8192 4096 true = .ok {
    name := "pmem"
    contents := 0x100000
    size := 8192
    isPersistent := true
    pageRefs := #[0, 0] } := rfl
  rw [openPmemFile, hf]
  rfl

theorem reached_twoPages (checker : CheckLog) : Reached (twoPages #[0, 0] checker) := by
  have hpower : Config.isPowerOfTwo 4096 = true := by decide
  exact .openPmemFile (.create (if_pos hpower)) (openPmemFile_twoPages checker)

end MapModel

end PmemPaths.Mapping
