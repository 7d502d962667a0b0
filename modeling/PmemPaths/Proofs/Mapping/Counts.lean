import PmemPaths.Proofs.Mapping.Calls

/-!
# The counts of pages account for every mapping

A run of calls on a model with a file of persistent memory maps and unmaps pages of it.
`PageEvent` says which pages a call did, read off the call and its answer alone: the
file, its counts and the checker are not part of it.

After a run, the count of each page is the number of mappings that cover it less the
number of unmappings that cover it, and the checker has looked at a page each time the
last of its mappings went away, in the order in which they went (`Run.counts_mappings`).
The run must not have stopped inside a walk.  What such a stop leaves behind is told with
the calls that fail.
-/

namespace PmemPaths.Mapping

/-- What a call did to the mappings of the persistent file. -/
inductive PageEvent where
  /-- So many pages were mapped, from one on. -/
  | mapped (first n : Nat)
  /-- So many pages were unmapped, from one on. -/
  | unmapped (first n : Nat)
  /-- Neither. -/
  | other
deriving DecidableEq, Repr

namespace PageEvent

/-- The page was mapped. -/
def maps (p : Nat) : PageEvent → Bool
  | mapped first n => first ≤ p && p < first + n
  | _ => false

/-- The page was unmapped. -/
def unmaps (p : Nat) : PageEvent → Bool
  | unmapped first n => first ≤ p && p < first + n
  | _ => false

/-- How many mappings of a page are live after some events. -/
def live (past : List PageEvent) (p : Nat) : Nat := past.countP (maps p) - past.countP (unmaps p)

/-- The pages that lost their last mapping, in order.  The first event of the list is the
latest. -/
def emptied : List PageEvent → List Nat
  | [] => []
  | mapped _ _ :: past => emptied past
  | unmapped first n :: past =>
    emptied past ++ (List.range' first n).filter fun p => live past p = 1
  | other :: past => emptied past

end PageEvent

namespace MapModel

open MappedFile PageEvent

variable {σ κ : Type}

/-- What a call to map did to the mappings of the persistent file: it mapped the pages
of the length rounded up, from the page of the offset on. -/
def mapEvent (m : MapModel σ κ) (r : MapRequest) : Except Fault Nat → PageEvent
  | .ok _ =>
    if m.mapsPages r then .mapped (r.offset.toNat / m.pageSize) (divUp r.length m.pageSize)
    else .other
  | .error _ => .other

/-- What a call to unmap did to the mappings of the persistent file: it unmapped the pages
of the length rounded up, from the page of the start on. -/
def unmapEvent (m : MapModel σ κ) (start length : Nat) : Except Fault Unit → PageEvent
  | .ok () =>
    match m.overlapped? start length with
    | .ok (some (_, f)) =>
      .unmapped ((start - f.contents) / m.pageSize) (divUp length m.pageSize)
    | _ => .other
  | .error _ => .other

/-- The answer is no fault that stops inside a walk over pages. -/
def EndsWalk {α : Type} (result : Except Fault α) : Prop :=
  ∀ page, result ≠ .error (.fatal (.zeroRefCount page)) ∧ result ≠ .error (.fatal (.notPmem page))

/-! ## The account of a file -/

section Accounts

variable [PersistenceChecker κ]

/-- The persistent file of a model accounts for what happened to its pages since another
model. -/
structure Accounts (m₀ : MapModel σ κ) (contents size : Nat) (past : List PageEvent)
    (m : MapModel σ κ) (f : MappedFile) : Prop where
  /-- It is the persistent file. -/
  pmem : m.pmemFile? = some f
  /-- Its contents lie where they lay. -/
  contents : f.contents = contents
  /-- It has as many bytes as it had. -/
  size : f.size = size
  /-- Pages have the size they had. -/
  pageSize : m.pageSize = m₀.pageSize
  /-- Each of its pages is counted. -/
  pages : f.pageRefs.size = divUp f.size m.pageSize
  /-- The count of a page is what was mapped less what was unmapped. -/
  refs : ∀ p refs, f.pageRefs[p]? = some refs →
    refs + past.countP (unmaps p) = past.countP (maps p)
  /-- The checker has looked at a page each time its last mapping went away. -/
  checker : m.checker = f.checkPages m.pageSize m₀.checker (emptied past)

namespace Accounts

variable {m₀ m m' : MapModel σ κ} {contents size first n : Nat} {past : List PageEvent}
  {f : MappedFile}

theorem live_eq (h : Accounts m₀ contents size past m f) {p refs : Nat}
    (hrefs : f.pageRefs[p]? = some refs) : live past p = refs := by
  have hcount := h.refs p refs hrefs
  rw [live]
  omega

theorem start {start : MapModel σ κ} {name : String} {fd : Int}
    (h : start.openPmemFile name contents size = .ok (m₀, fd)) :
    ∃ f, Accounts m₀ contents size [] m₀ f := by
  obtain ⟨f, fds, hf, rfl⟩ := openPmemFile_run h
  have hfile := unmapped_run hf
  refine ⟨f, by simp [pmemFile?], by rw [hfile], by rw [hfile], rfl, by simp [hfile], ?_, rfl⟩
  intro p refs hrefs
  rw [hfile, Array.getElem?_replicate] at hrefs
  split at hrefs
  · cases hrefs
    rfl
  · cases hrefs

/-- What does not touch the file keeps its account. -/
theorem other (h : Accounts m₀ contents size past m f) (hpmem : m'.pmemFile? = m.pmemFile?)
    (hpageSize : m'.pageSize = m.pageSize) (hchecker : m'.checker = m.checker) :
    Accounts m₀ contents size (.other :: past) m' f where
  pmem := hpmem.trans h.pmem
  contents := h.contents
  size := h.size
  pageSize := hpageSize.trans h.pageSize
  pages := by rw [hpageSize, h.pages]
  refs := by simpa [maps, unmaps] using h.refs
  checker := by rw [hchecker, hpageSize, h.checker, emptied]

omit [PersistenceChecker κ] in
/-- The file with other counts stays the persistent one. -/
theorem pmemFile?_recounted {id : Nat} {f' : MappedFile} {checker : κ} (hid : m.pmem = some id)
    (hf : m.files[id]? = some f) :
    pmemFile? { m with files := m.files.setIfInBounds id f', checker } = some f' := by
  have hlt : id < m.files.size := by
    obtain ⟨hlt, -⟩ := Array.getElem?_eq_some_iff.mp hf
    exact hlt
  simp [pmemFile?, hid, hlt]

/-- The file of the account is the one at the position of the persistent file. -/
theorem file_eq {id : Nat} {g : MappedFile} (h : Accounts m₀ contents size past m f)
    (hid : m.pmem = some id) (hg : m.files[id]? = some g) : g = f := by
  have hpmem := h.pmem
  rw [pmemFile?, hid, Option.bind_some, hg] at hpmem
  exact Option.some.inj hpmem

theorem mapped {id : Nat} (h : Accounts m₀ contents size past m f) (hid : m.pmem = some id)
    (hf : m.files[id]? = some f) :
    Accounts m₀ contents size (.mapped first n :: past)
      { m with files := m.files.setIfInBounds id (f.adjust (· + 1) first n) }
      (f.adjust (· + 1) first n) where
  pmem := pmemFile?_recounted hid hf
  contents := h.contents
  size := h.size
  pageSize := h.pageSize
  pages := by rw [size_pageRefs_adjust, h.pages, size_adjust]
  refs := by
    intro p refs hrefs
    rw [getElem?_adjust, Option.map_eq_some_iff] at hrefs
    obtain ⟨before, hbefore, rfl⟩ := hrefs
    have hcount := h.refs p before hbefore
    by_cases hp : first ≤ p ∧ p < first + n
    · simp [maps, unmaps, hp]
      omega
    · simp [maps, unmaps, hp]
      omega
  checker := h.checker

theorem unmapped {id : Nat} (h : Accounts m₀ contents size past m f) (hid : m.pmem = some id)
    (hf : m.files[id]? = some f)
    (hmapped : ∀ p, first ≤ p → p < first + n → ∃ refs, f.pageRefs[p]? = some (refs + 1)) :
    Accounts m₀ contents size (.unmapped first n :: past)
      { m with
        files := m.files.setIfInBounds id (f.adjust (· - 1) first n)
        checker := f.checkPages m.pageSize m.checker (f.lastPages first n) }
      (f.adjust (· - 1) first n) where
  pmem := pmemFile?_recounted hid hf
  contents := h.contents
  size := h.size
  pageSize := h.pageSize
  pages := by rw [size_pageRefs_adjust, h.pages, size_adjust]
  refs := by
    intro p refs hrefs
    rw [getElem?_adjust, Option.map_eq_some_iff] at hrefs
    obtain ⟨before, hbefore, rfl⟩ := hrefs
    have hcount := h.refs p before hbefore
    by_cases hp : first ≤ p ∧ p < first + n
    · obtain ⟨after, hafter⟩ := hmapped p hp.1 hp.2
      rw [hbefore] at hafter
      cases hafter
      simp [maps, unmaps, hp]
      omega
    · simp [maps, unmaps, hp]
      omega
  checker := by
    -- A page of the walk has one mapping left exactly when one of its mappings is live.
    have hlast : f.lastPages first n =
        (List.range' first n).filter fun p => live past p = 1 := by
      refine List.filter_congr ?_
      intro p hp
      obtain ⟨hle, hlt⟩ := List.mem_range'_1.mp hp
      obtain ⟨refs, hrefs⟩ := hmapped p hle hlt
      rw [h.live_eq hrefs, hrefs]
      simp
    dsimp only
    rw [hlast, h.checker, emptied, checkPages, checkPages, checkPages, List.foldl_append]
    rfl

end Accounts

end Accounts

/-! ## Runs -/

variable [HostMapper σ] [PersistenceChecker κ]

/-- One call, and what it did to the mappings of the persistent file. -/
inductive Step : MapModel σ κ → PageEvent → MapModel σ κ → Prop
  | openSymbolicFile {m m' : MapModel σ κ} {name : String} {contents size : Nat} {fd : Int} :
      m.openSymbolicFile name contents size = .ok (m', fd) → Step m .other m'
  | openHostFile {m : MapModel σ κ} {hostFd : Int} : Step m .other (m.openHostFile hostFd).1
  | close {m : MapModel σ κ} {fd : Int} : Step m .other (m.close fd).2
  | mmap {m m' : MapModel σ κ} {mem mem' : MappedMemory} {r : MapRequest}
      {result : Except Fault Nat} : m.mmap mem r = .ok (result, m', mem') → EndsWalk result →
      Step m (m.mapEvent r result) m'
  | mmap64 {m m' : MapModel σ κ} {mem mem' : MappedMemory} {r : MapRequest}
      {result : Except Fault Nat} : m.mmap64 mem r = .ok (result, m', mem') → EndsWalk result →
      Step m (m.mapEvent r result) m'
  | munmap {m m' : MapModel σ κ} {mem mem' : MappedMemory} {start length : Nat}
      {result : Except Fault Unit} : m.munmap mem start length = .ok (result, m', mem') →
      EndsWalk result → Step m (m.unmapEvent start length result) m'

/-- A run of calls with what each did, the latest first. -/
inductive Run (m₀ : MapModel σ κ) : List PageEvent → MapModel σ κ → Prop
  | start : Run m₀ [] m₀
  | step {past : List PageEvent} {e : PageEvent} {m m' : MapModel σ κ} :
      Run m₀ past m → Step m e m' → Run m₀ (e :: past) m'

variable {m₀ m m' : MapModel σ κ} {mem mem' : MappedMemory} {contents size : Nat}
  {past : List PageEvent} {f : MappedFile}

theorem Accounts.mmap {r : MapRequest} {result : Except Fault Nat}
    (h : Accounts m₀ contents size past m f) (hmap : m.mmap mem r = .ok (result, m', mem'))
    (hends : EndsWalk result) :
    ∃ f', Accounts m₀ contents size (m.mapEvent r result :: past) m' f' := by
  cases mmap_run hmap with
  | refused => exact ⟨f, h.other rfl rfl rfl⟩
  | hostRefused => exact ⟨f, h.other rfl rfl rfl⟩
  | byHost hpages =>
    rw [mapEvent, if_neg (Bool.eq_false_iff.mp hpages)]
    exact ⟨f, h.other rfl rfl rfl⟩
  | counted hpages hid hf hcounted =>
    cases h.file_eq hid hf
    cases hcounted with
    | all =>
      have hevent : m.mapEvent r (Except.map (fun _ => f.contents + r.offset.toNat) (.ok ())) =
          .mapped (r.offset.toNat / m.pageSize) (divUp r.length m.pageSize) := if_pos hpages
      rw [hevent]
      exact ⟨_, h.mapped hid hf⟩
    | notPmem => exact absurd rfl (hends _).2

theorem Accounts.munmap {start length : Nat} {result : Except Fault Unit}
    (h : Accounts m₀ contents size past m f)
    (hunmap : m.munmap mem start length = .ok (result, m', mem')) (hends : EndsWalk result) :
    ∃ f', Accounts m₀ contents size (m.unmapEvent start length result :: past) m' f' := by
  cases munmap_run hunmap with
  | refused => exact ⟨f, h.other rfl rfl rfl⟩
  | @byHost _ answer hoverlapped =>
    have hevent : m.unmapEvent start length (answer.mapError .errno) = .other := by
      cases answer with
      | error e => rfl
      | ok _ =>
        show m.unmapEvent start length (.ok ()) = .other
        simp only [unmapEvent, hoverlapped]
    rw [hevent]
    exact ⟨f, h.other rfl rfl rfl⟩
  | uncounted hoverlapped huncounted =>
    obtain ⟨hid, hf, -⟩ := overlapped?_eq_some hoverlapped
    cases h.file_eq hid hf
    cases huncounted with
    | all hmapped =>
      simp only [unmapEvent, hoverlapped]
      exact ⟨_, h.unmapped hid hf hmapped⟩
    | zeroRefCount => exact absurd rfl (hends _).1
    | notPmem => exact absurd rfl (hends _).2

theorem Step.keeps {e : PageEvent} (hstep : Step m e m') (h : Accounts m₀ contents size past m f) :
    ∃ f', Accounts m₀ contents size (e :: past) m' f' := by
  cases hstep with
  | openSymbolicFile hopen =>
    obtain ⟨g, fds, -, rfl⟩ := openSymbolicFile_run hopen
    refine ⟨f, h.other ?_ rfl rfl⟩
    -- The persistent file lies in front of the one that is opened.
    have hpmem := h.pmem
    rw [pmemFile?, Option.bind_eq_some_iff] at hpmem
    obtain ⟨id, hid, hf⟩ := hpmem
    obtain ⟨hlt, -⟩ := Array.getElem?_eq_some_iff.mp hf
    simp [pmemFile?, hid, Array.getElem?_push, Nat.ne_of_lt hlt]
  | openHostFile => exact ⟨f, h.other rfl rfl rfl⟩
  | @close fd =>
    refine ⟨f, ?_⟩
    rw [MapModel.close]
    split
    · exact h.other rfl rfl rfl
    · exact h.other rfl rfl rfl
  | mmap hmap hends => exact h.mmap hmap hends
  | mmap64 hmap hends => exact h.mmap hmap hends
  | munmap hunmap hends => exact h.munmap hunmap hends

/-- After any run of calls that did not stop inside a walk, the count of each page of the
persistent file is the number of mappings that cover it less the number of unmappings
that cover it, and the checker has looked at a page exactly when its last mapping went
away, in that order. -/
theorem Run.counts_mappings {start : MapModel σ κ} {name : String} {fd : Int}
    (hopen : start.openPmemFile name contents size = .ok (m₀, fd)) (hrun : Run m₀ past m) :
    ∃ f, Accounts m₀ contents size past m f := by
  induction hrun with
  | start => exact Accounts.start hopen
  | step _ hstep ih =>
    obtain ⟨f, h⟩ := ih
    exact hstep.keeps h

/-- Two pages are mapped, then the second is unmapped, and then the first. -/
theorem Run.counts_mappings_twoPages :
    openPmemFile
      { pageSize := 4096, host := ({ pageSize := 4096 } : RangeHost), checker := ({} : CheckLog) }
      "pmem" 0x100000 8192 = .ok (twoPages #[0, 0] {}, 3) ∧
    Run (twoPages #[0, 0] {}) [.unmapped 0 1, .unmapped 1 1, .mapped 0 2]
      (twoPages #[0, 0] { checked := [(0x101000, 4096), (0x100000, 4096)] }) ∧
    ∃ f, Accounts (twoPages #[0, 0] {}) 0x100000 8192 [.unmapped 0 1, .unmapped 1 1, .mapped 0 2]
      (twoPages #[0, 0] { checked := [(0x101000, 4096), (0x100000, 4096)] }) f := by
  have hopen := openPmemFile_twoPages {}
  have hmap : (twoPages #[0, 0] {}).mmap {} ⟨0, 8192, 3, 1, 3, 0⟩ =
      .ok (.ok 0x100000, twoPages #[1, 1] {}, {}) := rfl
  have hsecond : (twoPages #[1, 1] {}).munmap {} 0x101000 4096 =
      .ok (.ok (), twoPages #[1, 0] { checked := [(0x101000, 4096)] }, {}) := rfl
  have hfirst : (twoPages #[1, 0] { checked := [(0x101000, 4096)] }).munmap {} 0x100000 4096 =
      .ok (.ok (), twoPages #[0, 0] { checked := [(0x101000, 4096), (0x100000, 4096)] }, {}) := rfl
  have hrun : Run (twoPages #[0, 0] {}) [.unmapped 0 1, .unmapped 1 1, .mapped 0 2]
      (twoPages #[0, 0] { checked := [(0x101000, 4096), (0x100000, 4096)] }) :=
    .step (.step (.step .start (.mmap hmap (by simp [EndsWalk])))
      (.munmap hsecond (by simp [EndsWalk]))) (.munmap hfirst (by simp [EndsWalk]))
  exact ⟨hopen, hrun, Run.counts_mappings hopen hrun⟩

end MapModel

end PmemPaths.Mapping
