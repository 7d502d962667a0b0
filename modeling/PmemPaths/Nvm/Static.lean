import PmemPaths.Nvm.Session

/-!
# Static priorities

Weights and priorities for a whole module at once, whatever the call stack.  A
direct call weighs what it does itself and the priority its callee starts with,
unless the two functions call each other: calls inside a component of the call
graph add nothing.  The components come callees first, so the priority a callee
starts with is known when its callers are looked at.
-/

namespace PmemPaths.Nvm

open PmemPaths.Ir (ValueId FunctionId Module)
open PmemPaths.Graph (Partition)

/-- The tables of a whole module. -/
structure StaticTables where
  /-- What the instructions weigh, callees included. -/
  weights : Table
  /-- The priorities that follow from the weights. -/
  priorities : Table
  /-- The priority each function starts with. -/
  entry : Std.ExtTreeMap FunctionId Nat

namespace StaticTables

/-- Adds to each direct call in a function what the callee starts with, for
callees outside the component of the function. -/
def addCalls (m : Module) (graph : Partition FunctionId) (t : StaticTables) (f : FunctionId) :
    StaticTables :=
  (m.instructionsOf f).foldl (fun t v =>
    match (m.calledFunction? v).filter (!graph.sameComponent f ·) with
    | none => t
    | some g =>
      match t.entry[g]? with
      | none => t
      | some p => { t with weights := t.weights.insert v (addCapped (t.weights.getD v 0) p) }) t

/-- Adds the priorities of a function whose weights are final. -/
def addPriorities (m : Module) (t : StaticTables) (f : FunctionId) : StaticTables :=
  let own := Nvm.priorities m f t.weights
  { t with
    priorities := t.priorities.insertMany own.toList
    entry := t.entry.insert f (((m.entryFirstNonPhi? f).bind (own[·]?)).getD 0) }

/-- Finishes the functions of one component of the call graph. -/
def addComponent (m : Module) (graph : Partition FunctionId) (t : StaticTables)
    (component : List FunctionId) : StaticTables :=
  component.foldl (addPriorities m) (component.foldl (addCalls m graph) t)

/-- The tables that follow from what the instructions weigh by themselves. -/
def ofCoreWeights (m : Module) (core : Table) : StaticTables :=
  let graph := Partition.ofEdges m.definedFunctions m.callGraphEdges
  graph.components.foldl (addComponent m graph) ⟨core, ∅, ∅⟩

end StaticTables

namespace Session

variable {a : Analysis}

/-- What the instructions of all defined functions weigh by themselves.  Returns
weigh nothing. -/
def coreTable (d : Facts) : SessionM a Table := do
  let weights ← (a.module.definedFunctions.flatMap a.module.instructionsOf).mapM fun v => do
    return (v, ← coreWeight d false v)
  return .ofList weights

/-- The tables of the module under given facts. -/
def staticTables (d : Facts) : SessionM a StaticTables := do
  return StaticTables.ofCoreWeights a.module (← coreTable d)

end Session

/-- A thread's place in the tables. -/
structure StaticHeuristic where
  /-- The facts the tables were made under. -/
  state : Descriptor
  /-- The tables. -/
  tables : StaticTables
  /-- The current instruction. -/
  current : Option ValueId

namespace StaticHeuristic

/-- The priority of the current instruction, zero outside the tables. -/
def currentPriority (h : StaticHeuristic) : Nat :=
  (h.current.bind (h.tables.priorities[·]?)).getD 0

end StaticHeuristic

end PmemPaths.Nvm
