import PmemPaths.Ir.Module
import PmemPaths.Text.Column
import Std.Data.ExtTreeSet

/-!
# Where a persistence bug is

A place is where and why a bug shows: the allocation, the instruction, the call
stack and the reason.  Reports of one place are one root cause, whatever path
they come from.  A location is a place with the texts it was first seen with and
the root causes it may hide.
-/

namespace PmemPaths.RootCause

open PmemPaths.Ir (ValueId FunctionId)

/-- What is wrong. -/
inductive Reason where
  /-- A store was never made persistent. -/
  | unpersisted
  /-- A cache line was flushed that was persistent already. -/
  | unnecessaryFlush
  /-- A cache line was flushed that was not written. -/
  | flushOnUnmodified
deriving DecidableEq, Hashable, Repr

namespace Reason

/-- The name of a reason. -/
def name : Reason → String
  | unpersisted => "PM_Unpersisted"
  | unnecessaryFlush => "PM_UnnecessaryFlush"
  | flushOnUnmodified => "PM_FlushOnUnmodified"

/-- A reason in words. -/
def description : Reason → String
  | unpersisted => "modification to persistent memory was never persisted"
  | unnecessaryFlush => "flush of an already persisted cache line"
  | flushOnUnmodified => "flush of an unmodified cache line"

/-- The reason of that name. -/
def ofName? (s : String) : Option Reason :=
  [unpersisted, unnecessaryFlush, flushOnUnmodified].find? (·.name = s)

end Reason

/-- A call stack, outermost frame first: the call that opened each frame and its
function. -/
abbrev Stack := List (Option ValueId × FunctionId)

/-- Where and why a bug shows. -/
structure Place where
  /-- The allocation of the memory. -/
  site : ValueId
  /-- The instruction. -/
  inst : ValueId
  /-- The call stack. -/
  stack : Stack
  /-- What is wrong. -/
  reason : Reason
deriving DecidableEq, Hashable, Repr

/-- A place as it was first seen. -/
structure Location where
  /-- The place. -/
  place : Place
  /-- The text of the instruction. -/
  instText : String
  /-- The text of the allocation. -/
  siteText : String
  /-- The text of the call stack, empty when it is not known. -/
  stackText : String := ""
  /-- The root causes it may hide. -/
  masked : Std.ExtTreeSet Nat := ∅

namespace Location

/-- A place of which nothing but the numbers is known. -/
def ofPlace (p : Place) : Location where
  place := p
  instText := Ir.valueText p.inst
  siteText := Ir.valueText p.site

/-- The text of a location. -/
def text (l : Location) : String :=
  l.place.reason.name ++ " (" ++ l.place.reason.description ++ ")\n  at " ++ l.instText ++
    "\n  allocated at " ++ l.siteText ++ "\n" ++
    if l.stackText.isEmpty then ""
    else "  stack:\n" ++ String.join ((Text.lines l.stackText).map fun s => "    " ++ s ++ "\n")

end Location

end PmemPaths.RootCause
