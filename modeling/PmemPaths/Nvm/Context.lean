import PmemPaths.Nvm.Facts
import PmemPaths.Nvm.Priority
import PmemPaths.Outcome
import PmemPaths.Text.Column

/-!
# Contexts

A context is one activation of a function under given facts.  It weighs every
instruction, knows the priorities that follow from the weights, and has a child
context for each call whose callee is known.  The weight of an instruction is
what it does to persistent memory itself plus, at a call with a child, the
priority the child starts with.

A context never changes.  Learning something makes another context.
-/

namespace PmemPaths.Nvm

open PmemPaths.Ir (ValueId FunctionId Module)

/-- One activation of a function. -/
structure Context where
  /-- Its identity. -/
  id : Nat
  /-- The function. -/
  function : FunctionId
  /-- What is known on entry. -/
  state : Descriptor
  /-- A return weighs something, since the caller waits for the result. -/
  returnHasWeight : Bool
  /-- What the instructions weigh by themselves, as far as they do. -/
  coreWeights : Table
  /-- What the instructions weigh, callees included. -/
  weights : Table
  /-- The priorities that follow from the weights. -/
  priorities : Table
  /-- The contexts entered from the calls, one for each call at most. -/
  children : List (ValueId × Context)
  /-- Something weighs by itself, here or below. -/
  hasCoreWeight : Bool

namespace Context

/-- The context entered from a call. -/
def child? (c : Context) (call : ValueId) : Option Context :=
  (c.children.find? (·.1 = call)).map (·.2)

/-- The contexts with the one at a call replaced or added. -/
def setChild (call : ValueId) (child : Context) :
    List (ValueId × Context) → List (ValueId × Context)
  | [] => [(call, child)]
  | (v, c) :: rest => if v = call then (call, child) :: rest else (v, c) :: setChild call child rest
termination_by structural children => children

/-- The priority at the entry: that of the first instruction that is not a phi. -/
def rootPriority (m : Module) (c : Context) : Nat :=
  ((m.entryFirstNonPhi? c.function).bind (c.priorities[·]?)).getD c.hasCoreWeight.toNat

/-- What the instruction weighs by itself. -/
def coreWeight (c : Context) (v : ValueId) : Nat := c.coreWeights.getD v 0

/-- The weight that a table gives an instruction, as text. -/
def lineText (m : Module) (c : Context) (v : ValueId) : Except Abort String := do
  return "  " ++ Text.padRight 40 (← required (m.describe? v)) ++ " weight=" ++
    toString (c.weights.getD v 0) ++ " priority=" ++ toString (c.priorities.getD v 0) ++ "\n"

/-- The text of a context: a head line, then a line for each instruction. -/
def text (m : Module) (c : Context) : Except Abort String := do
  return "NvmContextDesc \x7b function: " ++ m.functionName c.function ++ ", root_priority: " ++
    toString (c.rootPriority m) ++ ", return_has_weight: " ++ toString c.returnHasWeight ++
    ", has_core_weight: " ++ toString c.hasCoreWeight ++ " \x7d\n" ++
    String.join (← (m.instructionsOf c.function).mapM (c.lineText m))

/-- A short form of a context, for reports. -/
def summary (m : Module) (c : Context) : String :=
  "NvmContextDesc \x7b function: FunctionId(" ++ toString c.function.index ++
    "), root_priority: " ++ toString (c.rootPriority m) ++ ", return_has_weight: " ++
    toString c.returnHasWeight ++ ", has_core_weight: " ++ toString c.hasCoreWeight ++
    ", children: " ++ toString c.children.length ++ " \x7d"

end Context

end PmemPaths.Nvm
