import PmemPaths.Config.Settings
import PmemPaths.Mapping.Host
import PmemPaths.Memory.AddressSpace
import PmemPaths.Outcome

/-!
# Mapping calls

The calls that map files and memory, with one file of persistent memory.

Mapping the persistent file gives addresses inside its contents and counts the
live mappings of each page.  When the last mapping of a page goes away, the page
still has to be persistent memory, and it is checked for stores that were never
made persistent.  Every other mapping is made by the host and shown in the
address space, one fixed object for each page.

A call returns its result together with what it left behind, also when it fails.  It
aborts where it would count with an address above the last one or a page behind the
file, which does not happen while every file ends below the last address.
-/

namespace PmemPaths.Mapping

open PmemPaths.Memory (AddressSpace ObjectSupply)

/-- What a descriptor stands for. -/
inductive OpenFile where
  /-- A file of the model, by its position. -/
  | model (file : Nat)
  /-- A file of the host, by its descriptor there. -/
  | host (fd : Int)
deriving DecidableEq, Repr

/-- The state of the mapping calls. -/
structure MapModel (σ κ : Type) where
  /-- The size of a page. -/
  pageSize : Nat
  /-- The files of the model. -/
  files : Array MappedFile := #[]
  /-- The open descriptors. -/
  fds : Std.ExtTreeMap Int OpenFile := ∅
  /-- The position of the persistent file. -/
  pmem : Option Nat := none
  /-- The host. -/
  host : σ
  /-- The persistence checker. -/
  checker : κ

/-- The memory that mapping calls change. -/
structure MappedMemory where
  /-- The address space. -/
  space : AddressSpace := {}
  /-- The identities of new objects. -/
  supply : ObjectSupply := {}

namespace MapModel

variable {σ κ : Type}

/-- A model without files.  Pages must have a power of two bytes. -/
def create (pageSize : Nat) (host : σ) (checker : κ) : Except Abort (MapModel σ κ) :=
  if Config.isPowerOfTwo pageSize then .ok { pageSize, host, checker }
  else .error (.pageSize pageSize)

/-- A model without files for some settings. -/
def ofSettings (s : Config.Settings) (host : σ) (checker : κ) : Except Abort (MapModel σ κ) :=
  create s.pageSize host checker

/-! ## Descriptors -/

/-- The lowest descriptor that is handed out. -/
def firstFd : Nat := 3

/-- The lowest descriptor from one on that is not open, trying so many. -/
def freeFdFrom (fds : Std.ExtTreeMap Int OpenFile) : Nat → Nat → Int
  | 0, fd => fd
  | k + 1, fd => if fds.contains fd then freeFdFrom fds k (fd + 1) else fd
termination_by structural k => k

/-- The lowest descriptor that is not open.  One of the first does, since there
are only so many open ones. -/
def freeFd (m : MapModel σ κ) : Int := freeFdFrom m.fds m.fds.size firstFd

/-- Opens a descriptor. -/
def allocate (m : MapModel σ κ) (f : OpenFile) : MapModel σ κ × Int :=
  let fd := m.freeFd
  ({ m with fds := m.fds.insert fd f }, fd)

/-- Opens a symbolic file with contents at an address. -/
def openSymbolicFile (m : MapModel σ κ) (name : String) (contents size : Nat) :
    Except Abort (MapModel σ κ × Int) := do
  let f ← MappedFile.unmapped name contents size m.pageSize false
  return allocate { m with files := m.files.push f } (.model m.files.size)

/-- Opens the file of persistent memory. -/
def openPmemFile (m : MapModel σ κ) (name : String) (contents size : Nat) :
    Except Abort (MapModel σ κ × Int) := do
  let f ← MappedFile.unmapped name contents size m.pageSize true
  let id := m.files.size
  return allocate { m with files := m.files.push f, pmem := some id } (.model id)

/-- Opens a file of the host. -/
def openHostFile (m : MapModel σ κ) (hostFd : Int) : MapModel σ κ × Int := m.allocate (.host hostFd)

/-- Closes a descriptor.  Its mappings stay. -/
def close (m : MapModel σ κ) (fd : Int) : Except Fault Unit × MapModel σ κ :=
  if m.fds.contains fd then (.ok (), { m with fds := m.fds.erase fd })
  else (.error (.errno .badDescriptor), m)

/-- The file of the model that a descriptor stands for. -/
def file? (m : MapModel σ κ) (fd : Int) : Option MappedFile :=
  match m.fds[fd]? with
  | some (.model id) => m.files[id]?
  | _ => none

/-- The file of persistent memory. -/
def pmemFile? (m : MapModel σ κ) : Option MappedFile := m.pmem.bind (m.files[·]?)

/-- Mapping the descriptor gives persistent memory. -/
def mapsPersistent (m : MapModel σ κ) (fd : Int) : Bool :=
  match m.fds[fd]? with
  | some (.model id) => m.pmem = some id
  | _ => false

/-! ## Pages -/

/-- A length rounded up to whole pages, unless that is more than all addresses. -/
def roundUp? (m : MapModel σ κ) (length : Nat) : Option Nat :=
  let rounded := divUp length m.pageSize * m.pageSize
  if rounded ≤ maxAddress then some rounded else none

/-- How many pages a range has, counted from its start. -/
def pageCount (m : MapModel σ κ) (start length : Nat) : Nat :=
  divUp (rangeEnd start length - start) m.pageSize

/-- The address is the start of a page of a range, pages counted from its start. -/
def isPageOf (m : MapModel σ κ) (start length address : Nat) : Bool :=
  start ≤ address && address < rangeEnd start length && (address - start) % m.pageSize = 0

/-- Binds a fixed object for each of some pages. -/
def bindPages (pageSize : Nat) : Nat → Nat → MappedMemory → Except Abort MappedMemory
  | 0, _, mem => .ok mem
  | n + 1, address, mem => do
    let (id, supply) := mem.supply.take
    let space ← mem.space.defineFixed id address pageSize
    bindPages pageSize n (address + pageSize) { space, supply }
termination_by structural n => n

/-- Unbinds the fixed objects at the pages of a range. -/
def unbindPages (m : MapModel σ κ) (start length : Nat) (s : AddressSpace) : AddressSpace :=
  ⟨s.bindings.filter fun address b =>
    !(b.object.isFixed && m.isPageOf start length address)⟩

/-! ## Mapping the persistent file -/

/-- Counts one more mapping for each of some pages.  Stops at the first page that
is not persistent memory. -/
def countPages [PersistenceChecker κ] (checker : κ) (pageSize : Nat) :
    Nat → Nat → MappedFile → Except Abort (Except Fault Unit × MappedFile)
  | 0, _, f => .ok (.ok (), f)
  | n + 1, page, f => do
    if PersistenceChecker.isPmem checker (← f.pageAddress pageSize page) pageSize then
      countPages checker pageSize n (page + 1) (← f.retain page)
    else return (.error (.fatal (.notPmem page)), f)
termination_by structural n => n

/-- Maps some pages of the persistent file, and gives their address. -/
def mapPages [PersistenceChecker κ] (m : MapModel σ κ) (id : Nat) (f : MappedFile)
    (pages offset : Nat) : Except Abort (Except Fault Nat × MapModel σ κ) := do
  let first := offset / m.pageSize
  if maxAddress < first + pages then throw .overflow
  let (r, f) ← countPages m.checker m.pageSize pages first f
  let m := { m with files := m.files.setIfInBounds id f }
  match r with
  | .error e => return (.error e, m)
  | .ok () => return (.ok (← addressOf (f.contents + offset)), m)

/-- Maps a file of the model. -/
def mmapFile [PersistenceChecker κ] (m : MapModel σ κ) (id length offset : Nat) :
    Except Abort (Except Fault Nat × MapModel σ κ) :=
  if m.pmem ≠ some id then return (.error (.fatal .notPersistentFile), m)
  else
    match m.roundUp? length, m.files[id]? with
    | none, _ => return (.error (.errno .invalid), m)
    | some _, none => return (.error (.fatal .notOpened), m)
    | some rounded, some f =>
      let stop := rangeEnd offset rounded
      if f.contents = 0 || f.size = 0 then return (.error (.fatal .notOpened), m)
      else if offset % m.pageSize ≠ 0 then
        return (.error (.fatal (.unalignedOffset offset)), m)
      else if f.size < stop then return (.error (.fatal (.beyondFileSize stop f.size)), m)
      else m.mapPages id f (rounded / m.pageSize) offset

/-- Takes one mapping from each of some pages.  Stops at the first page that is
not mapped, or that is not persistent memory when its last mapping goes away. -/
def uncountPages [PersistenceChecker κ] (pageSize : Nat) :
    Nat → Nat → MappedFile → κ → Except Abort (Except Fault Unit × MappedFile × κ)
  | 0, _, f, c => .ok (.ok (), f, c)
  | n + 1, page, f, c => do
    match ← f.refs page with
    | 0 => return (.error (.fatal (.zeroRefCount page)), f, c)
    | refs + 1 =>
      let f := f.setRefs page refs
      if refs ≠ 0 then uncountPages pageSize n (page + 1) f c
      else
        let address ← f.pageAddress pageSize page
        if PersistenceChecker.isPmem c address pageSize then
          uncountPages pageSize n (page + 1) f
            (PersistenceChecker.checkPersisted c address pageSize)
        else return (.error (.fatal (.notPmem page)), f, c)
termination_by structural n => n

/-- Unmaps a range that overlaps the persistent file.  A range that starts inside a
page takes the whole pages from that one on, as many as its length has. -/
def munmapFile [PersistenceChecker κ] (m : MapModel σ κ) (id : Nat) (f : MappedFile)
    (start length : Nat) : Except Abort (Except Fault Unit × MapModel σ κ) := do
  if !(← f.encloses start length) then
    return (.error (.fatal (.notEnclosed start (rangeEnd start length))), m)
  let first := (start - f.contents) / m.pageSize
  let pages := divUp length m.pageSize
  if maxAddress < first + pages then throw .overflow
  let (r, f, checker) ← uncountPages m.pageSize pages first f m.checker
  return (r, { m with files := m.files.setIfInBounds id f, checker })

/-! ## The calls -/

/-- The flag of a mapping without a file. -/
def anonymousFlag : Nat := 0x20

/-- The mapping is one without a file. -/
def isAnonymous (flags : Int) : Bool := (flags % 0x100000000).toNat &&& anonymousFlag ≠ 0

/-- Has the host make a mapping, and binds its pages. -/
def mmapHost [HostMapper σ] (m : MapModel σ κ) (mem : MappedMemory) (r : MapRequest) :
    Except Abort (Except Fault Nat × MapModel σ κ × MappedMemory) := do
  let (made, host) := HostMapper.mmap m.host r
  let m := { m with host }
  match made with
  | .error e => return (.error (.errno e), m, mem)
  | .ok address =>
    return (.ok address, m,
      ← bindPages m.pageSize (m.pageCount address r.length) address mem)

variable [HostMapper σ] [PersistenceChecker κ]

/-- Maps a file or memory, and gives the address. -/
def mmap (m : MapModel σ κ) (mem : MappedMemory) (r : MapRequest) :
    Except Abort (Except Fault Nat × MapModel σ κ × MappedMemory) :=
  if r.length = 0 || r.offset < 0 || (m.roundUp? r.length).isNone then
    return (.error (.errno .invalid), m, mem)
  else if isAnonymous r.flags then m.mmapHost mem r
  else
    match m.fds[r.fd]? with
    | none => return (.error (.errno .badDescriptor), m, mem)
    | some (.host fd) => m.mmapHost mem { r with fd }
    | some (.model id) => do
      let (result, m) ← m.mmapFile id r.length r.offset.toNat
      return (result, m, mem)

/-- Maps a file or memory, and gives the address.  Offsets have 64 bits either
way. -/
def mmap64 (m : MapModel σ κ) (mem : MappedMemory) (r : MapRequest) :
    Except Abort (Except Fault Nat × MapModel σ κ × MappedMemory) :=
  m.mmap mem r

/-- The persistent file and its position, if a range overlaps it. -/
def overlapped? (m : MapModel σ κ) (start length : Nat) :
    Except Abort (Option (Nat × MappedFile)) :=
  match m.pmem, m.pmemFile? with
  | some id, some f => return if ← f.overlaps start length then some (id, f) else none
  | _, _ => return none

/-- Has the host remove mappings, and unbinds their pages. -/
def munmapHost (m : MapModel σ κ) (mem : MappedMemory) (start length : Nat) :
    Except Fault Unit × MapModel σ κ × MappedMemory :=
  let (result, host) := HostMapper.munmap m.host start length
  (result.mapError .errno, { m with host },
    { mem with space := m.unbindPages start length mem.space })

/-- Unmaps a range. -/
def munmap (m : MapModel σ κ) (mem : MappedMemory) (start length : Nat) :
    Except Abort (Except Fault Unit × MapModel σ κ × MappedMemory) := do
  match ← m.overlapped? start length with
  | some (id, f) =>
    let (result, m) ← m.munmapFile id f start length
    return (result, m, mem)
  | none => return m.munmapHost mem start length

omit [HostMapper σ] [PersistenceChecker κ]

/-- Locking memory is not permitted. -/
def mlock (_ : MapModel σ κ) (_start _length : Nat) : Except Fault Unit :=
  .error (.errno .notPermitted)

/-- Unlocking memory is not permitted. -/
def munlock (_ : MapModel σ κ) (_start _length : Nat) : Except Fault Unit :=
  .error (.errno .notPermitted)

/-- Changing how memory may be used has no effect. -/
def mprotect (_ : MapModel σ κ) (_start _length : Nat) (_protection : Int) : Except Fault Unit :=
  .ok ()

end MapModel

end PmemPaths.Mapping
