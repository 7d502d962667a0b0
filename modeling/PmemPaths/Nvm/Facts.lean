import PmemPaths.PointsTo.Solution

/-!
# Facts about persistent memory

What one activation of a function knows about persistent memory: the sites that
allocate it, and the values known not to point to it.  Values that are globals
are kept apart from the others, because only what is known about globals holds
outside the activation.

A value may point to persistent memory when it is in neither list of exceptions
and one of the objects it may point to comes from such a site.

A `Shared` value is a value with an identity.  Two values that are equal may
still have been made at different times, and callers look at the identity to see
that an operation changed nothing.
-/

namespace PmemPaths.Nvm

open PmemPaths.Ir (ValueId FunctionId Module)
open PmemPaths.PointsTo (Objects)

/-- A value with an identity. -/
structure Shared (α : Type) where
  /-- The identity. -/
  id : Nat
  /-- The value. -/
  value : α

/-- A program and what its pointers may point to. -/
structure Analysis where
  /-- The program. -/
  module : Module
  /-- The objects a value may point to. -/
  pointsTo : ValueId → Objects

/-- The allocation sites among the objects a value may point to. -/
def Analysis.sites (a : Analysis) (v : ValueId) : Objects :=
  (a.pointsTo v).filter a.module.isAllocationSite

/-- What is known about persistent memory. -/
structure Facts where
  /-- The sites that allocate it. -/
  allocs : Objects
  /-- The values other than globals known not to point to it. -/
  notLocal : Objects := ∅
  /-- The globals known not to point to it. -/
  notGlobal : Objects := ∅
deriving DecidableEq

/-- Facts with an identity. -/
abbrev Descriptor := Shared Facts

namespace Facts

/-- The value is known not to point to persistent memory. -/
def excludes (d : Facts) (v : ValueId) : Bool := d.notLocal.contains v || d.notGlobal.contains v

/-- The objects include a persistent one.  The smaller of the two sets is gone through. -/
def meets (d : Facts) (objects : Objects) : Bool :=
  if objects.size < d.allocs.size then objects.toList.any d.allocs.contains
  else d.allocs.toList.any objects.contains

/-- The value may point to persistent memory. -/
def mayPoint (a : Analysis) (d : Facts) (v : ValueId) : Bool :=
  !d.excludes v && d.meets (a.sites v)

/-- The value is a call that allocates persistent memory. -/
def isAllocCall (m : Module) (d : Facts) (v : ValueId) : Bool := d.allocs.contains v && m.isCall v

/-- The variadic argument should be watched.  None is: variadic arguments are not
tracked. -/
def isImportantVariadic (_ : Facts) (_ : ValueId) : Bool := false

/-- A number that equal facts share, made of the sizes of the three sets. -/
def sizeHash (d : Facts) : Nat :=
  (d.notLocal.size <<< 16) ||| (d.notGlobal.size <<< 8) ||| d.allocs.size

instance : Hashable Facts := ⟨fun d => UInt64.ofNat d.sizeHash⟩

/-- The calls of the named functions in the bodies of a module. -/
def callsOf (m : Module) (names : List String) : List ValueId :=
  (m.definedFunctions.flatMap m.instructionsOf).filter fun v =>
    (m.calledFunction? v).any fun f => names.contains (m.functionName f)

/-- What is known at first: calls of the named functions allocate persistent
memory, and so do the given sites. -/
def initial (m : Module) (names : List String) (sites : List ValueId) : Facts where
  allocs := .ofList (callsOf m names ++ sites)

/-- A set with an element put in or taken out. -/
def put (s : Objects) (v : ValueId) : Bool → Objects
  | true => s.insert v
  | false => s.erase v

/-- What is known after learning whether a value is persistent memory.  A call is
then also an allocation site, or no longer one. -/
def update (m : Module) (d : Facts) (v : ValueId) (isNvm : Bool) : Facts where
  allocs := if m.isCall v then put d.allocs v isNvm else d.allocs
  notLocal := if m.isGlobal v then d.notLocal else put d.notLocal v !isNvm
  notGlobal := if m.isGlobal v then put d.notGlobal v !isNvm else d.notGlobal

/-- The names of some values, as text. -/
def nameList (m : Module) (s : Objects) : String :=
  ", ".intercalate (s.toList.map m.valueName)

/-- The text of the facts, with values shown by name. -/
def text (m : Module) (d : Facts) : String :=
  "NvmValueDesc \x7b nvm_allocs: [" ++ nameList m d.allocs ++ "], not_local_nvm: [" ++
    nameList m d.notLocal ++ "], not_global_nvm: [" ++ nameList m d.notGlobal ++ "] \x7d"

end Facts

end PmemPaths.Nvm
