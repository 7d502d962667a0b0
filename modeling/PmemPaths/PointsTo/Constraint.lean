import PmemPaths.Ir.Module

/-!
# Inclusion constraints

Which object a value may point to is described by inclusions between sets of
objects, one set for each value and one for the memory of each object.  A module
gives one constraint or more for each of its instructions that move pointers.

* alloc: `x` points to the object `o`.
* copy: `x` points to whatever `y` points to.
* load: `x` points to whatever the memory behind `p` points to.
* store: the memory behind `p` points to whatever `y` points to.

A direct call of a defined function copies arguments to parameters and returned
values to the call.  A call of a declaration makes an object of its own.  An
indirect call is kept apart, since the functions it calls are part of the answer.
-/

namespace PmemPaths.PointsTo

open PmemPaths.Ir (ValueId FunctionId Module Operation Callee)

/-- An inclusion between sets of objects. -/
inductive Constraint where
  | alloc (x object : ValueId)
  | copy (x y : ValueId)
  | load (x pointer : ValueId)
  | store (pointer y : ValueId)
deriving DecidableEq, Repr

namespace Constraint

/-- The name of the kind of a constraint. -/
def kindName : Constraint → String
  | alloc _ _ => "ALLOC"
  | copy _ _ => "COPY"
  | load _ _ => "LOAD"
  | store _ _ => "STORE"

/-- The side that includes. -/
def lhs : Constraint → ValueId
  | alloc x _ | copy x _ | load x _ | store x _ => x

/-- The side that is included. -/
def rhs : Constraint → ValueId
  | alloc _ y | copy _ y | load _ y | store _ y => y

/-- It gives a value an object. -/
def isAlloc : Constraint → Bool
  | alloc _ _ => true
  | _ => false

/-- It copies between values. -/
def isCopy : Constraint → Bool
  | copy _ _ => true
  | _ => false

/-- It reads memory. -/
def isLoad : Constraint → Bool
  | load _ _ => true
  | _ => false

/-- It writes memory. -/
def isStore : Constraint → Bool
  | store _ _ => true
  | _ => false

/-- It goes through memory. -/
def isComplex (c : Constraint) : Bool := c.isLoad || c.isStore

end Constraint

/-- A call through a function pointer. -/
structure IndirectCall where
  /-- The call. -/
  call : ValueId
  /-- The function pointer. -/
  pointer : ValueId
  /-- The arguments. -/
  args : List ValueId
deriving DecidableEq, Repr

/-- The constraints of a module. -/
structure ConstraintSet where
  /-- The inclusions, in the order they were found. -/
  constraints : List Constraint := []
  /-- The calls whose functions are not known beforehand. -/
  indirectCalls : List IndirectCall := []
deriving DecidableEq, Repr

/-- How many constraints satisfy a test. -/
def ConstraintSet.count (s : ConstraintSet) (p : Constraint → Bool) : Nat :=
  (s.constraints.filter p).length

/-! ## The constraints of a module -/

/-- What the returns of a function return. -/
def returnedValues (m : Module) (f : FunctionId) : List ValueId :=
  (m.instructionsOf f).filterMap fun v =>
    match m.operation? v with
    | some (.ret r) => r
    | _ => none

/-- The inclusions that a call of a defined function stands for. -/
def bindings (m : Module) (f : FunctionId) (call : ValueId) (args : List ValueId) :
    List (ValueId × ValueId) :=
  let params := (m.function? f).elim [] (·.params)
  params.zip args ++ (returnedValues m f).map fun r => (call, r)

/-- The constraints of one instruction. -/
def instructionConstraints (m : Module) (v : ValueId) : List Constraint :=
  match m.operation? v with
  | some .alloca => [.alloc v v]
  | some (.load p) => [.load v p]
  | some (.store x p) => [.store p x]
  | some (.gep base _) => [.copy v base]
  | some (.cast s) => [.copy v s]
  | some (.phi incoming) => incoming.map fun (x, _) => .copy v x
  | some (.other xs) => xs.map fun x => .copy v x
  | some (.call (.direct f) args) =>
    if m.isDefined f then (bindings m f v args).map fun (x, y) => .copy x y
    else [.alloc v v]
  | _ => []

/-- The indirect call an instruction is. -/
def indirectCall? (m : Module) (v : ValueId) : Option IndirectCall :=
  match m.operation? v with
  | some (.call (.indirect p) args) => some ⟨v, p, args⟩
  | _ => none

/-- The instructions of all defined functions. -/
def programInstructions (m : Module) : List ValueId :=
  m.definedFunctions.flatMap m.instructionsOf

/-- The constraints of a module: globals and functions point to themselves, and
every instruction of a defined function has its say. -/
def ConstraintSet.ofModule (m : Module) : ConstraintSet where
  constraints :=
    (m.globals ++ m.functions.toList.map (·.address)).map (fun v => .alloc v v) ++
      (programInstructions m).flatMap (instructionConstraints m)
  indirectCalls := (programInstructions m).filterMap (indirectCall? m)

end PmemPaths.PointsTo
