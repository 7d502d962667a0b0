import PmemPaths.Mapping.Fault
import PmemPaths.Mapping.File
import Std.Data.ExtTreeMap

/-!
# The host and the persistence checker

What the model of mapping calls asks others for.  A host makes the mappings that
are not of the persistent file.  A checker knows which memory is persistent, and
looks at a page when its last mapping goes away.

Two simple ones are given.  `RangeHost` hands out addresses from a private range,
one mapping behind the other.  `CheckLog` takes everything for persistent except
the pages on a list, and keeps a log of what it was asked to look at.
-/

namespace PmemPaths.Mapping

/-- A request for a mapping. -/
structure MapRequest where
  /-- The wanted address. -/
  start : Nat
  /-- The number of bytes. -/
  length : Nat
  /-- How the memory may be used. -/
  protection : Int
  /-- What kind of mapping it is. -/
  flags : Int
  /-- The descriptor of the file. -/
  fd : Int
  /-- Where in the file the mapping starts. -/
  offset : Int
deriving DecidableEq, Repr

/-- Something that makes mappings. -/
class HostMapper (σ : Type) where
  /-- Makes a mapping and gives its address. -/
  mmap : σ → MapRequest → Except Errno Nat × σ
  /-- Removes the mappings of a range. -/
  munmap : σ → Nat → Nat → Except Errno Unit × σ

/-- Something that knows about persistent memory. -/
class PersistenceChecker (κ : Type) where
  /-- The range is persistent memory. -/
  isPmem : κ → Nat → Nat → Bool
  /-- Looks for stores in the range that were never made persistent. -/
  checkPersisted : κ → Nat → Nat → κ

/-! ## A host with a private range -/

/-- A host that hands out one address behind the other. -/
structure RangeHost where
  /-- The size of a page. -/
  pageSize : Nat
  /-- The next address. -/
  next : Nat := 0x7f0000000000
  /-- The mappings: their addresses and lengths. -/
  mappings : Std.ExtTreeMap Nat Nat := ∅

namespace RangeHost

/-- The address lies in a mapping. -/
def isMapped (h : RangeHost) (address : Nat) : Bool :=
  (h.mappings.getEntryLE? address).any fun (start, length) => address < start + length

/-- Maps so many bytes, rounded up to whole pages, at the next address. -/
def map (h : RangeHost) (r : MapRequest) : Except Errno Nat × RangeHost :=
  if r.length = 0 then (.error .invalid, h)
  else
    let length := divUp r.length h.pageSize * h.pageSize
    if maxAddress < length || maxAddress < h.next + length then (.error .noMemory, h)
    else
      (.ok h.next,
        { h with next := h.next + length, mappings := h.mappings.insert h.next length })

/-- Removes the mappings that start in a range, which starts at a page. -/
def unmap (h : RangeHost) (start length : Nat) : Except Errno Unit × RangeHost :=
  if start % h.pageSize ≠ 0 then (.error .invalid, h)
  else
    let stop := rangeEnd start length
    (.ok (), { h with mappings := h.mappings.filter fun s _ => !(start ≤ s && s < stop) })

end RangeHost

instance : HostMapper RangeHost := ⟨RangeHost.map, RangeHost.unmap⟩

/-! ## A checker with a log -/

/-- A checker that keeps a log. -/
structure CheckLog where
  /-- The addresses of pages that are not persistent memory. -/
  volatile : List Nat := []
  /-- The ranges looked at, in order. -/
  checked : List (Nat × Nat) := []
deriving DecidableEq, Repr

instance : PersistenceChecker CheckLog where
  isPmem c address _ := !c.volatile.contains address
  checkPersisted c address length := { c with checked := c.checked ++ [(address, length)] }

end PmemPaths.Mapping
