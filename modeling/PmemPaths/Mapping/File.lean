import PmemPaths.Outcome

/-!
# Mapped files

A file whose contents lie in memory, with a count of the live mappings of each
of its pages.  Addresses have 64 bits.  A range of a caller that would end above
the last address ends at it, but a file has no such place to end at: asking for an
address above the last one is an abort.
-/

namespace PmemPaths.Mapping

/-- The last address. -/
def maxAddress : Nat := 0xffffffffffffffff

/-- The end of a range of addresses. -/
def rangeEnd (start length : Nat) : Nat := min (start + length) maxAddress

/-- An address, unless it is above the last one. -/
def addressOf (n : Nat) : Except Abort Nat := if n ≤ maxAddress then .ok n else .error .overflow

/-- A quotient rounded up. -/
def divUp (n d : Nat) : Nat := (n + d - 1) / d

/-- A file whose contents lie in memory. -/
structure MappedFile where
  /-- Its name. -/
  name : String
  /-- The address of its first byte, zero while it has none. -/
  contents : Nat
  /-- Its number of bytes. -/
  size : Nat
  /-- Its bytes are symbolic. -/
  isSymbolic : Bool := true
  /-- It is persistent memory. -/
  isPersistent : Bool := false
  /-- The number of live mappings of each page. -/
  pageRefs : Array Nat
deriving DecidableEq, Repr

namespace MappedFile

/-- The most pages that can be counted. -/
def maxPages : Nat := 0x1fffffffffffffff

/-- The most mappings of a page that can be counted. -/
def maxRefs : Nat := 0xffffffff

/-- A file that nothing maps yet. -/
def unmapped (name : String) (contents size pageSize : Nat) (isPersistent : Bool) :
    Except Abort MappedFile := do
  if pageSize = 0 then throw .overflow
  let pages := divUp size pageSize
  if maxPages < pages then throw .noRoom
  return { name, contents, size, isPersistent, pageRefs := .replicate pages 0 }

/-- The address behind the file. -/
def stop (f : MappedFile) : Except Abort Nat := addressOf (f.contents + f.size)

/-- The address of a page of the file. -/
def pageAddress (f : MappedFile) (pageSize page : Nat) : Except Abort Nat :=
  addressOf (f.contents + page * pageSize)

/-- The range and the file share an address, or the range lies inside.  Where the
file ends is asked only when the range ends behind its start. -/
def overlaps (f : MappedFile) (start length : Nat) : Except Abort Bool :=
  if f.contents < rangeEnd start length then return start < (← f.stop) else return false

/-- The range lies in the file.  Where the file ends is asked only when the range
does not start in front of it. -/
def encloses (f : MappedFile) (start length : Nat) : Except Abort Bool :=
  if f.contents ≤ start then return rangeEnd start length ≤ (← f.stop) else return false

/-- The number of live mappings of a page. -/
def refs (f : MappedFile) (page : Nat) : Except Abort Nat := required f.pageRefs[page]?

/-- The file with another number of live mappings of a page. -/
def setRefs (f : MappedFile) (page n : Nat) : MappedFile :=
  { f with pageRefs := f.pageRefs.setIfInBounds page n }

/-- The file with one more mapping of a page. -/
def retain (f : MappedFile) (page : Nat) : Except Abort MappedFile := do
  let n ← f.refs page
  if maxRefs ≤ n then throw .overflow
  return f.setRefs page (n + 1)

/-- How many pages are mapped. -/
def mappedPages (f : MappedFile) : Nat := (f.pageRefs.toList.filter (0 < ·)).length

example : rangeEnd 8 maxAddress = maxAddress := by decide
example : addressOf (maxAddress + 1) = .error .overflow := rfl

end MappedFile

end PmemPaths.Mapping
