import PmemPaths.Proofs.Mapping.Bounds
import PmemPaths.Proofs.OrderedMap

/-!
# The host and the address space

A mapping that is not of the persistent file is kept twice.  The host keeps one range for
it, and the address space one fixed object for each of its pages.  `RangeHost` removes a
mapping when the first address of it is unmapped, and the address space removes an object
when the page of it is unmapped.  So the two agree on an address as long as its page and
the first page of its mapping were unmapped together, and no longer
(`HostRun.host_and_space`, `HostRun.not_mirrored`).

What a run of calls did to the mappings of the host is a list of `HostEvent`s, the latest
first.  A mapping *survives* the events that came after it if none of them ends it; for
the host and for the address space different events do.
-/

namespace PmemPaths.Mapping

/-! ## What is left of mappings -/

/-- What a call did to the mappings of the host. -/
inductive HostEvent where
  /-- So many bytes were mapped at an address. -/
  | mapped (start length : Nat)
  /-- A range was unmapped. -/
  | unmapped (start length : Nat)
deriving DecidableEq, Repr

namespace HostEvent

/-- The address was in a range that was unmapped. -/
def takes (address : Nat) : HostEvent → Bool
  | mapped _ _ => false
  | unmapped start length => start ≤ address && address < rangeEnd start length

/-- The address started a page of a range that was unmapped. -/
def takesPage (pageSize address : Nat) : HostEvent → Bool
  | mapped _ _ => false
  | unmapped start length =>
    start ≤ address && address < rangeEnd start length && (address - start) % pageSize = 0

/-- A mapping was made, and no event since has ended it. -/
def Survives (ends : HostEvent → Bool) (past : List HostEvent) (start length : Nat) : Prop :=
  ∃ later earlier, past = later ++ .mapped start length :: earlier ∧ ∀ e ∈ later, ends e = false

variable {ends : HostEvent → Bool} {past : List HostEvent} {e : HostEvent} {s l : Nat}

theorem not_survives_nil : ¬ Survives ends [] s l := by
  rintro ⟨later, earlier, h, -⟩
  simp at h

/-- A mapping survives one event more if the event makes it, or does not end it. -/
theorem survives_cons :
    Survives ends (e :: past) s l ↔ e = .mapped s l ∨ ends e = false ∧ Survives ends past s l := by
  constructor
  · rintro ⟨later, earlier, h, hlater⟩
    cases later with
    | nil => exact .inl (List.cons.inj h).1
    | cons f later =>
      obtain ⟨rfl, hpast⟩ := List.cons.inj h
      rw [List.forall_mem_cons] at hlater
      exact .inr ⟨hlater.1, later, earlier, hpast, hlater.2⟩
  · rintro (rfl | ⟨he, later, earlier, rfl, hlater⟩)
    · exact ⟨[], past, rfl, by simp⟩
    · exact ⟨e :: later, earlier, rfl, List.forall_mem_cons.mpr ⟨he, hlater⟩⟩

theorem Survives.mem (h : Survives ends past s l) : .mapped s l ∈ past := by
  obtain ⟨later, earlier, rfl, -⟩ := h
  simp

end HostEvent

open HostEvent

/-- The start of the page of an address, pages counted from the start of a mapping. -/
def pageStart (pageSize start address : Nat) : Nat :=
  start + (address - start) / pageSize * pageSize

/-- The address lies in a bound object that stands for memory of the host. -/
def LiesInFixed (space : Memory.AddressSpace) (address : Nat) : Prop :=
  ∃ b ∈ space.toList, b.object.isFixed = true ∧ b.object.contains address = true

/-- What the host and the address space hold after some events. -/
structure Views (past : List HostEvent) (pageSize : Nat) (host : RangeHost)
    (space : Memory.AddressSpace) : Prop where
  /-- An address lies in a fixed object if it was mapped and its page was not unmapped
  since. -/
  fixed_iff : ∀ a, LiesInFixed space a ↔
    ∃ s l, s ≤ a ∧ a < s + l ∧ Survives (takesPage pageSize (pageStart pageSize s a)) past s l
  /-- An address is mapped by the host if it was mapped and the first address of its mapping
  was not unmapped since. -/
  mapped_iff : ∀ a, host.isMapped a = true ↔
    ∃ s l, s ≤ a ∧ a < s + l ∧ Survives (takes s) past s l
  /-- The two agree exactly if each page of a mapping is unmapped when its first address
  is. -/
  mirrored_iff : (∀ a, LiesInFixed space a ↔ host.isMapped a = true) ↔
    ∀ s l a, .mapped s l ∈ past → s ≤ a → a < s + l →
      (Survives (takesPage pageSize (pageStart pageSize s a)) past s l ↔
        Survives (takes s) past s l)

/-! ## What calls keep -/

/-- Each bound object is a page of the host, at its own address. -/
def FixedPages (pageSize : Nat) (space : Memory.AddressSpace) : Prop :=
  ∀ (p : Nat) (b : Memory.Binding), space.bindings[p]? = some b →
    b.object.isFixed = true ∧ b.object.address = p ∧ b.object.size = pageSize

/-- The host holds the mappings that survive, and the address space the pages that do. -/
structure Held (past : List HostEvent) (pageSize : Nat) (host : RangeHost)
    (space : Memory.AddressSpace) : Prop where
  pageSize_pos : 0 < pageSize
  hostPageSize : host.pageSize = pageSize
  mappings : ∀ s l, host.mappings[s]? = some l ↔ Survives (takes s) past s l
  pages : ∀ p, (∃ b, space.bindings[p]? = some b) ↔
    ∃ s l k, p = s + k * pageSize ∧ k * pageSize < l ∧ Survives (takesPage pageSize p) past s l
  fixed : FixedPages pageSize space
  /-- What was mapped are whole pages below the next address. -/
  below : ∀ s l, .mapped s l ∈ past → 0 < l ∧ pageSize ∣ l ∧ s + l ≤ host.next
  /-- What was mapped does not overlap. -/
  apart : ∀ s l s' l', .mapped s l ∈ past → .mapped s' l' ∈ past →
    (s = s' ∧ l = l') ∨ s + l ≤ s' ∨ s' + l' ≤ s

section

variable {past : List HostEvent} {pageSize : Nat} {host host' : RangeHost}
  {space : Memory.AddressSpace} {a p first length : Nat}

/-- Mappings lie apart, so the last one that starts at or before an address is the only one
to ask. -/
theorem RangeHost.isMapped_iff
    (hapart : ∀ s l s' l' : Nat, host.mappings[s]? = some l → host.mappings[s']? = some l' →
      (s = s' ∧ l = l') ∨ s + l ≤ s' ∨ s' + l' ≤ s) :
    host.isMapped a = true ↔ ∃ s l, host.mappings[s]? = some l ∧ s ≤ a ∧ a < s + l := by
  rw [isMapped, Option.any_eq_true]
  constructor
  · rintro ⟨⟨s, l⟩, hfound, hlt⟩
    obtain ⟨hs, hle, -⟩ := of_getEntryLE? hfound
    exact ⟨s, l, hs, hle, by simpa using hlt⟩
  · rintro ⟨s, l, hs, hle, hlt⟩
    obtain ⟨s', l', hfound⟩ := exists_getEntryLE? hs hle
    obtain ⟨hs', hle', hgreatest⟩ := of_getEntryLE? hfound
    refine ⟨(s', l'), hfound, ?_⟩
    rw [decide_eq_true_eq]
    obtain rfl | hne := Decidable.em (s = s')
    · rw [hs, Option.some.injEq] at hs'
      rw [← hs']
      exact hlt
    · have hss' := hgreatest s l hs hle
      have hbefore := hapart s l s' l' hs hs'
      omega

namespace Held

/-- The mapping of an address is the only one. -/
theorem exists_iff (h : Held past pageSize host space) {f : Nat → HostEvent → Bool} {s l : Nat}
    (hmapped : .mapped s l ∈ past) (hle : s ≤ a) (hlt : a < s + l) :
    (∃ s' l', s' ≤ a ∧ a < s' + l' ∧ Survives (f s') past s' l') ↔
      Survives (f s) past s l := by
  constructor
  · rintro ⟨s', l', hle', hlt', hsurvives⟩
    have hapart := h.apart s l s' l' hmapped hsurvives.mem
    obtain ⟨rfl, rfl⟩ : s = s' ∧ l = l' := by omega
    exact hsurvives
  · intro hsurvives
    exact ⟨s, l, hle, hlt, hsurvives⟩

theorem liesInFixed_iff (h : Held past pageSize host space) :
    LiesInFixed space a ↔
      ∃ s l, s ≤ a ∧ a < s + l ∧
        Survives (takesPage pageSize (pageStart pageSize s a)) past s l := by
  have hpos := h.pageSize_pos
  constructor
  · rintro ⟨b, hb, -, hcontains⟩
    obtain ⟨⟨p, b⟩, hp, rfl⟩ := List.mem_map.mp hb
    rw [Std.ExtTreeMap.mem_toList_iff_getElem?_eq_some] at hp
    obtain ⟨-, haddress, hsize⟩ := h.fixed p b hp
    rw [Memory.MemoryObject.contains, haddress, hsize, Bool.and_eq_true, decide_eq_true_eq,
      decide_eq_true_eq] at hcontains
    obtain ⟨s, l, k, rfl, hk, hsurvives⟩ := (h.pages p).mp ⟨b, hp⟩
    have hpage : (a - s) / pageSize = k := by
      rw [Nat.div_eq_iff hpos]
      omega
    -- A page that starts in a mapping ends in it, since the mapping has whole pages.
    have hlast : (k + 1) * pageSize ≤ l := by
      obtain ⟨-, ⟨n, rfl⟩, -⟩ := h.below s l hsurvives.mem
      rw [Nat.mul_comm pageSize] at hk ⊢
      exact Nat.mul_le_mul_right _ (Nat.lt_of_mul_lt_mul_right hk)
    rw [Nat.add_one_mul] at hlast
    refine ⟨s, l, by omega, by omega, ?_⟩
    rw [pageStart, hpage]
    exact hsurvives
  · rintro ⟨s, l, hle, hlt, hsurvives⟩
    have hdiv := Nat.div_mul_le_self (a - s) pageSize
    have hmod := Nat.lt_div_mul_add hpos (a := a - s)
    obtain ⟨b, hb⟩ := (h.pages (pageStart pageSize s a)).mpr
      ⟨s, l, (a - s) / pageSize, rfl, by omega, hsurvives⟩
    obtain ⟨hfixed, haddress, hsize⟩ := h.fixed _ b hb
    rw [← Std.ExtTreeMap.mem_toList_iff_getElem?_eq_some] at hb
    refine ⟨b, List.mem_map.mpr ⟨(_, b), hb, rfl⟩, hfixed, ?_⟩
    rw [Memory.MemoryObject.contains, haddress, hsize, pageStart, Bool.and_eq_true,
      decide_eq_true_eq, decide_eq_true_eq]
    omega

theorem isMapped_iff (h : Held past pageSize host space) :
    host.isMapped a = true ↔ ∃ s l, s ≤ a ∧ a < s + l ∧ Survives (takes s) past s l := by
  rw [RangeHost.isMapped_iff]
  · simp only [h.mappings]
    constructor
    · rintro ⟨s, l, hs, hle, hlt⟩
      exact ⟨s, l, hle, hlt, hs⟩
    · rintro ⟨s, l, hle, hlt, hs⟩
      exact ⟨s, l, hs, hle, hlt⟩
  · intro s l s' l' hs hs'
    rw [h.mappings] at hs hs'
    exact h.apart s l s' l' hs.mem hs'.mem

theorem views (h : Held past pageSize host space) : Views past pageSize host space := by
  refine ⟨fun a => h.liesInFixed_iff, fun a => h.isMapped_iff, ?_⟩
  constructor
  · intro hmirrored s l a hmapped hle hlt
    have ha := hmirrored a
    rw [h.liesInFixed_iff, h.isMapped_iff, h.exists_iff hmapped hle hlt,
      h.exists_iff (f := takes) hmapped hle hlt] at ha
    exact ha
  · intro htogether a
    rw [h.liesInFixed_iff, h.isMapped_iff]
    constructor
    · rintro ⟨s, l, hle, hlt, hsurvives⟩
      exact ⟨s, l, hle, hlt, (htogether s l a hsurvives.mem hle hlt).mp hsurvives⟩
    · rintro ⟨s, l, hle, hlt, hsurvives⟩
      exact ⟨s, l, hle, hlt, (htogether s l a hsurvives.mem hle hlt).mpr hsurvives⟩

theorem start (hpos : 0 < pageSize) : Held [] pageSize { pageSize } {} where
  pageSize_pos := hpos
  hostPageSize := rfl
  mappings := by simp [not_survives_nil]
  pages := by simp [not_survives_nil]
  fixed := by simp [FixedPages]
  below := by simp
  apart := by simp

theorem unmapped (h : Held past pageSize host space) {space' : Memory.AddressSpace}
    (hmappings : ∀ s, host'.mappings[s]? =
      host.mappings[s]?.filter fun _ => !takes s (.unmapped first length))
    (hpages : ∀ p, space'.bindings[p]? =
      space.bindings[p]?.filter fun _ => !takesPage pageSize p (.unmapped first length))
    (hpageSize : host'.pageSize = host.pageSize) (hnext : host'.next = host.next) :
    Held (.unmapped first length :: past) pageSize host' space' where
  pageSize_pos := h.pageSize_pos
  hostPageSize := hpageSize.trans h.hostPageSize
  mappings := by
    intro s l
    rw [hmappings, Option.filter_eq_some_iff, h.mappings, survives_cons]
    simp [and_comm]
  pages := by
    intro p
    simp only [hpages, Option.filter_eq_some_iff, exists_and_right, h.pages, survives_cons,
      reduceCtorEq, false_or, Bool.not_eq_true']
    constructor
    · rintro ⟨⟨s, l, k, hp, hk, hsurvives⟩, hstays⟩
      exact ⟨s, l, k, hp, hk, hstays, hsurvives⟩
    · rintro ⟨s, l, k, hp, hk, hstays, hsurvives⟩
      exact ⟨⟨s, l, k, hp, hk, hsurvives⟩, hstays⟩
  fixed := by
    intro p b hb
    rw [hpages, Option.filter_eq_some_iff] at hb
    exact h.fixed p b hb.1
  below := by
    simpa [hnext] using h.below
  apart := by
    simpa using h.apart

theorem mapped (h : Held past pageSize host space) {space' : Memory.AddressSpace} {n : Nat}
    (hn : 0 < n)
    (hhost : host' = { host with
      next := host.next + n * pageSize
      mappings := host.mappings.insert host.next (n * pageSize) })
    (hpages : ∀ p, (∃ b, space'.bindings[p]? = some b) ↔
      (∃ k < n, p = host.next + k * pageSize) ∨ ∃ b, space.bindings[p]? = some b)
    (hfixed : FixedPages pageSize space') :
    Held (.mapped host.next (n * pageSize) :: past) pageSize host' space' where
  pageSize_pos := h.pageSize_pos
  hostPageSize := by rw [hhost, h.hostPageSize]
  mappings := by
    intro s l
    rw [hhost, Std.ExtTreeMap.getElem?_insert, survives_cons]
    simp only [Nat.compare_eq_eq, mapped.injEq, takes, true_and]
    split
    · next hs =>
      subst hs
      have hnew : ¬ Survives (takes host.next) past host.next l := by
        intro hsurvives
        have hbelow := h.below _ l hsurvives.mem
        omega
      simp [hnew]
    · next hs => simp [hs, h.mappings]
  pages := by
    intro p
    have hpos := h.pageSize_pos
    simp only [hpages, h.pages, survives_cons, mapped.injEq, takesPage, true_and]
    constructor
    · rintro (⟨k, hk, rfl⟩ | ⟨s, l, k, hp, hk, hsurvives⟩)
      · exact ⟨_, _, k, rfl, Nat.mul_lt_mul_of_pos_right hk hpos, .inl ⟨rfl, rfl⟩⟩
      · exact ⟨s, l, k, hp, hk, .inr hsurvives⟩
    · rintro ⟨s, l, k, hp, hk, ⟨rfl, rfl⟩ | hsurvives⟩
      · exact .inl ⟨k, Nat.lt_of_mul_lt_mul_right hk, hp⟩
      · exact .inr ⟨s, l, k, hp, hk, hsurvives⟩
  fixed := hfixed
  below := by
    rw [hhost]
    intro s l hmem
    have hpos := Nat.mul_pos hn h.pageSize_pos
    obtain he | hold := List.mem_cons.mp hmem
    · cases he
      exact ⟨hpos, Nat.dvd_mul_left _ _, Nat.le_refl _⟩
    · obtain ⟨hl, hdvd, hle⟩ := h.below s l hold
      exact ⟨hl, hdvd, Nat.le_trans hle (Nat.le_add_right _ _)⟩
  apart := by
    intro s l s' l' hmem hmem'
    obtain he | hold := List.mem_cons.mp hmem
    · cases he
      obtain he' | hold' := List.mem_cons.mp hmem'
      · cases he'
        exact .inl ⟨rfl, rfl⟩
      · exact .inr (.inr (h.below s' l' hold').2.2)
    · obtain he' | hold' := List.mem_cons.mp hmem'
      · cases he'
        exact .inr (.inl (h.below s l hold).2.2)
      · exact h.apart s l s' l' hold hold'

end Held

end

/-! ## Calls -/

theorem RangeHost.map_run {host host' : RangeHost} {r : MapRequest} {result : Except Errno Nat}
    (h : host.map r = (result, host')) :
    (∃ e, result = .error e ∧ host' = host) ∨
      result = .ok host.next ∧ 0 < r.length ∧
      host.next + divUp r.length host.pageSize * host.pageSize ≤ maxAddress ∧
      host' = { host with
        next := host.next + divUp r.length host.pageSize * host.pageSize
        mappings := host.mappings.insert host.next
          (divUp r.length host.pageSize * host.pageSize) } := by
  rw [map] at h
  split at h
  · cases h
    exact .inl ⟨_, rfl, rfl⟩
  · dsimp only at h
    split at h
    · cases h
      exact .inl ⟨_, rfl, rfl⟩
    · next hlength hfits =>
      cases h
      simp only [Bool.or_eq_true, decide_eq_true_eq, not_or, Nat.not_lt] at hfits
      exact .inr ⟨rfl, Nat.pos_of_ne_zero hlength, hfits.2, rfl⟩

/-- A range that starts at a page loses the mappings whose first address lies in it. -/
theorem RangeHost.unmap_run {host : RangeHost} {start length : Nat}
    (h : start % host.pageSize = 0) :
    host.unmap start length = (.ok (), { host with
      mappings := host.mappings.filter fun s _ => !(start ≤ s && s < rangeEnd start length) }) := by
  rw [unmap, if_neg (fun hne => hne h)]

namespace MapModel

theorem getElem?_bind {space : Memory.AddressSpace} {o : Memory.MemoryObject}
    {c : Memory.Contents} {p : Nat} :
    (space.bind o c).bindings[p]? = if o.address = p then some ⟨o, c⟩ else space.bindings[p]? := by
  rw [Memory.AddressSpace.bind, Std.ExtTreeMap.getElem?_insert]
  simp only [Nat.compare_eq_eq]

theorem exists_bind {space : Memory.AddressSpace} {o : Memory.MemoryObject} {c : Memory.Contents}
    {p : Nat} :
    (∃ b, (space.bind o c).bindings[p]? = some b) ↔
      p = o.address ∨ ∃ b, space.bindings[p]? = some b := by
  rw [getElem?_bind]
  split
  · next hp => simp [hp]
  · next hp => simp [Ne.symm hp]

/-- Binding pages adds a page of the host at each of their addresses. -/
theorem bindPages_run {pageSize n address : Nat} {mem mem' : MappedMemory}
    (h : bindPages pageSize n address mem = .ok mem') :
    (∀ p, (∃ b, mem'.space.bindings[p]? = some b) ↔
      (∃ k < n, p = address + k * pageSize) ∨ ∃ b, mem.space.bindings[p]? = some b) ∧
    (FixedPages pageSize mem.space → FixedPages pageSize mem'.space) := by
  induction n generalizing address mem with
  | zero =>
    cases h
    simp
  | succ n ih =>
    rw [bindPages] at h
    obtain ⟨space, hdefined, h⟩ := bind_eq_ok.mp h
    obtain ⟨c, -, hspace⟩ := bind_eq_ok.mp hdefined
    cases hspace
    obtain ⟨hpages, hfixed⟩ := ih h
    refine ⟨?_, ?_⟩
    · intro p
      have hfirst : ∀ k, address + pageSize + k * pageSize = address + (k + 1) * pageSize := by
        intro k
        rw [Nat.add_one_mul]
        omega
      rw [hpages, exists_bind, Nat.exists_lt_succ_left]
      simp only [hfirst, Nat.zero_mul, Nat.add_zero, Memory.MemoryObject.fixed]
      rw [← or_assoc, or_comm (a := p = address)]
    · intro hold
      refine hfixed ?_
      intro p b hb
      rw [getElem?_bind] at hb
      split at hb
      · next hp =>
        cases hb
        exact ⟨rfl, hp, rfl⟩
      · exact hold p b hb

/-! ## Runs -/

section

variable {σ κ : Type}

/-- What a call to map did to the mappings of the host: it mapped the length rounded up to
whole pages, unless the call was for the persistent file. -/
def hostMapEvents (m : MapModel σ κ) (r : MapRequest) : Except Fault Nat → List HostEvent
  | .ok address =>
    if m.mapsPages r then []
    else [.mapped address (divUp r.length m.pageSize * m.pageSize)]
  | .error _ => []

/-- What a call to unmap did to the mappings of the host: it unmapped the range, unless
that overlaps the persistent file. -/
def hostUnmapEvents (m : MapModel σ κ) (start length : Nat) : List HostEvent :=
  match m.overlapped? start length with
  | .ok none => [.unmapped start length]
  | _ => []

end

variable {κ : Type} [PersistenceChecker κ]

/-- One call, and what it did to the mappings of the host.  Ranges that are unmapped start
at a page.  What the checker knows may change between calls. -/
inductive HostStep : MapModel RangeHost κ → MappedMemory → List HostEvent →
    MapModel RangeHost κ → MappedMemory → Prop
  | openPmemFile {m m' : MapModel RangeHost κ} {mem : MappedMemory} {name : String}
      {contents size : Nat} {fd : Int} :
      m.openPmemFile name contents size = .ok (m', fd) → HostStep m mem [] m' mem
  | openSymbolicFile {m m' : MapModel RangeHost κ} {mem : MappedMemory} {name : String}
      {contents size : Nat} {fd : Int} :
      m.openSymbolicFile name contents size = .ok (m', fd) → HostStep m mem [] m' mem
  | openHostFile {m : MapModel RangeHost κ} {mem : MappedMemory} {hostFd : Int} :
      HostStep m mem [] (m.openHostFile hostFd).1 mem
  | close {m : MapModel RangeHost κ} {mem : MappedMemory} {fd : Int} :
      HostStep m mem [] (m.close fd).2 mem
  | mmap {m m' : MapModel RangeHost κ} {mem mem' : MappedMemory} {r : MapRequest}
      {result : Except Fault Nat} : m.mmap mem r = .ok (result, m', mem') →
      HostStep m mem (m.hostMapEvents r result) m' mem'
  | mmap64 {m m' : MapModel RangeHost κ} {mem mem' : MappedMemory} {r : MapRequest}
      {result : Except Fault Nat} : m.mmap64 mem r = .ok (result, m', mem') →
      HostStep m mem (m.hostMapEvents r result) m' mem'
  | munmap {m m' : MapModel RangeHost κ} {mem mem' : MappedMemory} {start length : Nat}
      {result : Except Fault Unit} : start % m.pageSize = 0 →
      m.munmap mem start length = .ok (result, m', mem') →
      HostStep m mem (m.hostUnmapEvents start length) m' mem'
  | checker {m : MapModel RangeHost κ} {mem : MappedMemory} {checker : κ} :
      HostStep m mem [] { m with checker } mem

/-- A run of calls from an empty address space, with what they did, the latest first. -/
inductive HostRun (pageSize : Nat) : List HostEvent → MapModel RangeHost κ → MappedMemory → Prop
  | start {m : MapModel RangeHost κ} {supply : Memory.ObjectSupply} {checker : κ} :
      create pageSize { pageSize } checker = .ok m → HostRun pageSize [] m { supply }
  | step {past new : List HostEvent} {m m' : MapModel RangeHost κ} {mem mem' : MappedMemory} :
      HostRun pageSize past m mem → HostStep m mem new m' mem' →
      HostRun pageSize (new ++ past) m' mem'

variable {m m' : MapModel RangeHost κ} {mem mem' : MappedMemory} {past new : List HostEvent}
  {r : MapRequest} {start length : Nat}

/-- A call to map leaves what the events say. -/
theorem held_mmap (h : Held past m.pageSize m.host mem.space) {result : Except Fault Nat}
    (hmap : m.mmap mem r = .ok (result, m', mem')) :
    Held (m.hostMapEvents r result ++ past) m'.pageSize m'.host mem'.space := by
  cases mmap_run hmap with
  | refused => exact h
  | @hostRefused fd e host hhost =>
    obtain ⟨-, -, rfl⟩ | ⟨hok, -⟩ := RangeHost.map_run (r := { r with fd }) hhost
    · exact h
    · cases hok
  | @byHost fd address host _ hpages hhost hbound =>
    obtain ⟨e, he, -⟩ | ⟨hok, hlength, hfits, hleft⟩ :=
      RangeHost.map_run (r := { r with fd }) hhost
    · cases he
    · cases hok
      have hpos := h.pageSize_pos
      obtain ⟨hbinds, hfixed⟩ := bindPages_run hbound
      -- The range ends below the last address, so each of its pages is bound.
      have hcount : m.pageCount m.host.next r.length = divUp r.length m.pageSize := by
        have hle := le_divUp_mul (n := r.length) hpos
        rw [h.hostPageSize] at hfits
        rw [pageCount, rangeEnd, Nat.min_eq_left (by dsimp only at hfits; omega),
          Nat.add_sub_cancel_left]
      rw [hcount] at hbinds
      rw [hostMapEvents, hpages]
      refine h.mapped ?_ ?_ hbinds (hfixed h.fixed)
      · rw [lt_divUp hpos, Nat.zero_mul]
        exact hlength
      · rw [h.hostPageSize] at hleft
        rw [hleft, h.hostPageSize]
  | @counted id f f' walked hpages =>
    have hevents : m.hostMapEvents r (walked.map fun _ => f.contents + r.offset.toNat) = [] := by
      cases walked with
      | error e => rfl
      | ok _ => exact if_pos hpages
    rw [hevents]
    exact h

/-- A call to unmap leaves what the events say. -/
theorem held_munmap (h : Held past m.pageSize m.host mem.space) {result : Except Fault Unit}
    (hstart : start % m.pageSize = 0)
    (hunmap : m.munmap mem start length = .ok (result, m', mem')) :
    Held (m.hostUnmapEvents start length ++ past) m'.pageSize m'.host mem'.space := by
  rw [hostUnmapEvents]
  split
  · next hoverlapped =>
    have hrun : HostMapper.munmap m.host start length = _ :=
      RangeHost.unmap_run (by rw [h.hostPageSize, hstart])
    rw [munmap, hoverlapped] at hunmap
    change Except.ok (m.munmapHost mem start length) = _ at hunmap
    rw [munmapHost, hrun] at hunmap
    cases hunmap
    refine h.unmapped ?_ ?_ rfl rfl
    · intro s
      rw [Std.ExtTreeMap.getElem?_filter']
      rfl
    · intro p
      rw [unbindPages, Std.ExtTreeMap.getElem?_filter']
      cases hb : mem.space.bindings[p]? with
      | none => rfl
      | some b =>
        rw [Option.filter_some, Option.filter_some, (h.fixed p b hb).1, Bool.true_and]
        rfl
  · next hoverlapped =>
    cases munmap_run hunmap with
    | refused => exact h
    | byHost hnone => exact absurd hnone hoverlapped
    | uncounted => exact h

theorem HostStep.keeps (hstep : HostStep m mem new m' mem')
    (h : Held past m.pageSize m.host mem.space) :
    Held (new ++ past) m'.pageSize m'.host mem'.space := by
  cases hstep with
  | openPmemFile hopen =>
    obtain ⟨f, fds, -, rfl⟩ := openPmemFile_run hopen
    exact h
  | openSymbolicFile hopen =>
    obtain ⟨f, fds, -, rfl⟩ := openSymbolicFile_run hopen
    exact h
  | openHostFile => exact h
  | close =>
    rw [MapModel.close]
    split
    · exact h
    · exact h
  | mmap hmap => exact held_mmap h hmap
  | mmap64 hmap => exact held_mmap h hmap
  | munmap hstart hunmap => exact held_munmap h hstart hunmap
  | checker => exact h

/-- A run leaves what its events say, by induction on its calls. -/
theorem HostRun.held {pageSize : Nat} (h : HostRun pageSize past m mem) :
    Held past m.pageSize m.host mem.space := by
  induction h with
  | @start m _ _ hcreate =>
    rw [create] at hcreate
    split at hcreate
    · next hpower =>
      cases hcreate
      rw [Config.isPowerOfTwo, decide_eq_true_eq] at hpower
      refine Held.start ?_
      rw [← hpower]
      exact Nat.two_pow_pos _
    · cases hcreate
  | step _ hstep ih => exact hstep.keeps ih

/-- After any run of calls that maps memory and files of the host and unmaps ranges, the
host and the address space hold what the events say, and agree exactly as far as each page
was unmapped together with the first address of its mapping. -/
theorem HostRun.host_and_space {pageSize : Nat} (h : HostRun pageSize past m mem) :
    Views past m.pageSize m.host mem.space :=
  h.held.views

/-- Two pages are mapped, and the second is unmapped. -/
theorem exists_cutRun : ∃ (m : MapModel RangeHost CheckLog) (mem : MappedMemory),
    m.pageSize = 4096 ∧
    HostRun 4096 [.unmapped 0x7f0000001000 4096, .mapped 0x7f0000000000 8192] m mem := by
  have hcreate : create 4096 ({ pageSize := 4096 } : RangeHost) ({} : CheckLog) =
      .ok { pageSize := 4096, host := { pageSize := 4096 }, checker := {} } :=
    if_pos (by decide)
  have hmap : mmap
      { pageSize := 4096, host := ({ pageSize := 4096 } : RangeHost), checker := ({} : CheckLog) }
      {} ⟨0, 8192, 3, 0x22, -1, 0⟩ = .ok (.ok 0x7f0000000000, _, _) := rfl
  have hmapped := (HostRun.start hcreate).step (.mmap hmap)
  exact ⟨_, _, rfl, hmapped.step (@HostStep.munmap _ _ _ _ _ _ 0x7f0000001000 4096 _ rfl rfl)⟩

theorem HostRun.host_and_space_cutRun :
    ∃ (m : MapModel RangeHost CheckLog) (mem : MappedMemory),
    HostRun 4096 [.unmapped 0x7f0000001000 4096, .mapped 0x7f0000000000 8192] m mem ∧
    Views [.unmapped 0x7f0000001000 4096, .mapped 0x7f0000000000 8192] m.pageSize m.host
      mem.space := by
  obtain ⟨m, mem, -, hrun⟩ := exists_cutRun
  exact ⟨m, mem, hrun, hrun.host_and_space⟩

/-- The host still has the second page, and the address space does not. -/
theorem HostRun.not_mirrored : ∃ (m : MapModel RangeHost CheckLog) (mem : MappedMemory),
    HostRun 4096 [.unmapped 0x7f0000001000 4096, .mapped 0x7f0000000000 8192] m mem ∧
    m.host.isMapped 0x7f0000001000 = true ∧ ¬ LiesInFixed mem.space 0x7f0000001000 := by
  obtain ⟨m, mem, hpageSize, hrun⟩ := exists_cutRun
  refine ⟨m, mem, hrun, ?_, ?_⟩
  · rw [hrun.held.isMapped_iff]
    refine ⟨0x7f0000000000, 8192, by decide, by decide, ?_⟩
    exact survives_cons.mpr (.inr ⟨by decide, survives_cons.mpr (.inl rfl)⟩)
  · rw [hrun.held.liesInFixed_iff, hpageSize]
    rintro ⟨s, l, -, -, hsurvives⟩
    obtain he | ⟨hpage, hsurvives⟩ := survives_cons.mp hsurvives
    · cases he
    obtain he | ⟨-, hnone⟩ := survives_cons.mp hsurvives
    · cases he
      exact absurd hpage (by decide)
    · exact not_survives_nil hnone

end MapModel

end PmemPaths.Mapping
