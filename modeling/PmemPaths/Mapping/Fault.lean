import PmemPaths.Text.Column

/-!
# Faults of mapping calls

A mapping call fails with an error number, or with a misuse of persistent memory
that ends the path.
-/

namespace PmemPaths.Mapping

/-- An error number. -/
inductive Errno where
  | notPermitted
  | badDescriptor
  | noMemory
  | invalid
deriving DecidableEq, Repr

namespace Errno

/-- The name of an error number. -/
def name : Errno → String
  | notPermitted => "EPERM"
  | badDescriptor => "EBADF"
  | noMemory => "ENOMEM"
  | invalid => "EINVAL"

/-- The value of an error number. -/
def code : Errno → Nat
  | notPermitted => 1
  | badDescriptor => 9
  | noMemory => 12
  | invalid => 22

end Errno

/-- A misuse of persistent memory. -/
inductive Misuse where
  /-- The mapped file is not the persistent one. -/
  | notPersistentFile
  /-- The persistent file has no contents yet. -/
  | notOpened
  /-- The offset is inside a page. -/
  | unalignedOffset (offset : Nat)
  /-- The mapping ends behind the file. -/
  | beyondFileSize (stop size : Nat)
  /-- A range to unmap is partly outside the file. -/
  | notEnclosed (start stop : Nat)
  /-- A page to unmap is not mapped. -/
  | zeroRefCount (page : Nat)
  /-- A page is not persistent memory. -/
  | notPmem (page : Nat)
deriving DecidableEq, Repr

/-- The wording of a misuse. -/
def Misuse.message : Misuse → String
  | notPersistentFile => "mmap only supports symbolic files that are persistent files"
  | notOpened => "pmem file not opened prior to mapping"
  | unalignedOffset n => "mmap invoked without a page-aligned offset (" ++ toString n ++ ")"
  | beyondFileSize stop size =>
    "trying to map beyond the file size (" ++ toString stop ++ " > " ++ toString size ++ ")"
  | notEnclosed start stop =>
    "munmap invoked on [" ++ Text.hex start ++ ", " ++ Text.hex stop ++
      ") that's not fully included in the pmem file"
  | zeroRefCount page =>
    "munmap invoked on page " ++ toString page ++ " with ref count already equal to 0"
  | notPmem page => "page " ++ toString page ++ " of the pmem file is not persistent memory"

/-- Why a mapping call fails. -/
inductive Fault where
  | errno (e : Errno)
  | fatal (m : Misuse)
deriving DecidableEq, Repr

/-- The wording of a fault. -/
def Fault.message : Fault → String
  | errno e => "errno " ++ e.name
  | fatal m => "fatal: " ++ m.message

end PmemPaths.Mapping
