import PmemPaths.Graph.Components
import PmemPaths.PointsTo.Constraint
import Std.Data.ExtTreeMap
import Std.Data.ExtTreeSet

/-!
# Points-to solutions

The least sets of objects that satisfy the constraints of a module.

The sets belong to *nodes*.  A value is the node of its own number, and the
memory of an object comes after all values, so that one cell stands for all the
bytes of an object.  Objects *flow* along edges between nodes.  Copies are edges
from the start; a load or store becomes edges as soon as it is known what its
pointer points to, and an indirect call as soon as it is known what it calls.

A worklist holds the nodes whose set has grown since it was last looked at.
Taking a node from it adds the edges its set calls for and sends the set along
all edges that leave the node.  Sets and edges only grow and there are finitely
many nodes and objects, so the list runs empty, and then the sets are a solution.
A run may also be cut short after so many nodes; its sets are then too small.

Nodes on a cycle of copies have equal sets in any solution.  They may share the
set of the least of them.
-/

namespace PmemPaths.PointsTo

open PmemPaths.Ir (ValueId FunctionId Module)
open PmemPaths.Graph (Partition)

/-- A set of objects, each named by the value that makes it. -/
abbrev Objects := Std.ExtTreeSet ValueId

/-- A value, or the memory of an object. -/
abbrev Node := Nat

/-! ## What flows where -/

/-- The part of the constraints that does not change during a run. -/
structure Flow where
  /-- How many values the module has. -/
  valueCount : Nat
  /-- The node whose set stands for the set of a node. -/
  shared : Node → Node
  /-- The loads through each node: where the result goes. -/
  loads : Std.ExtTreeMap Node (List Node)
  /-- The stores through each node: where the value comes from. -/
  stores : Std.ExtTreeMap Node (List Node)
  /-- The indirect calls through each node. -/
  calls : Std.ExtTreeMap Node (List IndirectCall)
  /-- The defined function whose address an object is. -/
  target? : ValueId → Option FunctionId
  /-- What a call of a function copies, target first. -/
  bindings : FunctionId → IndirectCall → List (ValueId × ValueId)

namespace Flow

/-- The node of an object's memory. -/
def cell (p : Flow) (o : ValueId) : Node := p.valueCount + o.index

/-- The functions an indirect call through a node with this set calls. -/
def targets (p : Flow) (known : Objects) : List FunctionId := known.toList.filterMap p.target?

/-- The indirect calls through a node with this set, each with a function it calls. -/
def resolutions (p : Flow) (v : Node) (known : Objects) : List (IndirectCall × FunctionId) :=
  (p.calls.getD v []).flatMap fun c => (p.targets known).map fun f => (c, f)

/-- The edges that a node with this set calls for, source first. -/
def edges (p : Flow) (v : Node) (known : Objects) : List (Node × Node) :=
  (p.loads.getD v []).flatMap (fun d => known.toList.map fun o => (p.cell o, d)) ++
  (p.stores.getD v []).flatMap (fun s => known.toList.map fun o => (s, p.cell o)) ++
  (p.resolutions v known).flatMap fun (c, f) =>
    (p.bindings f c).map fun (x, y) => (y.index, x.index)

end Flow

/-! ## Runs -/

/-- What a run knows. -/
structure Run where
  /-- The sets of the nodes. -/
  sets : Std.ExtTreeMap Node Objects := ∅
  /-- The edges that leave each node. -/
  edges : Std.ExtTreeMap Node (Std.ExtTreeSet Node) := ∅
  /-- The functions each indirect call was seen to call. -/
  resolved : Std.ExtTreeMap ValueId (Std.ExtTreeSet FunctionId) := ∅
  /-- The nodes to look at. -/
  worklist : List Node := []

namespace Run

/-- The set of a node. -/
def objects (r : Run) (v : Node) : Objects := r.sets.getD v ∅

/-- The nodes behind the edges that leave a node. -/
def successors (r : Run) (v : Node) : Std.ExtTreeSet Node := r.edges.getD v ∅

/-- Sends a set to a node, which has to be looked at if it has grown. -/
def send (r : Run) (known : Objects) (v : Node) : Run :=
  let old := r.objects v
  let new := old.insertMany known.toList
  if new = old then r
  else
    { r with
      sets := r.sets.insert v new
      worklist := if v ∈ r.worklist then r.worklist else r.worklist ++ [v] }

/-- Adds an edge, and sends along it what its source has. -/
def addEdge (p : Flow) (r : Run) (e : Node × Node) : Run :=
  let source := p.shared e.1
  let target := p.shared e.2
  if source = target || (r.successors source).contains target then r
  else
    let r := { r with edges := r.edges.insert source ((r.successors source).insert target) }
    r.send (r.objects source) target

/-- Remembers that an indirect call calls a function. -/
def resolve (r : Run) (call : ValueId) (f : FunctionId) : Run :=
  { r with resolved := r.resolved.insert call ((r.resolved.getD call ∅).insert f) }

/-- Looks at one node. -/
def visit (p : Flow) (r : Run) (v : Node) : Run :=
  let known := r.objects v
  let r := (p.resolutions v known).foldl (fun r (c, f) => r.resolve c.call f) r
  let r := (p.edges v known).foldl (addEdge p) r
  (r.successors v).toList.foldl (fun r w => r.send known w) r

/-- Looks at the nodes of the worklist, at most so many of them. -/
def steps (p : Flow) : Nat → Run → Run
  | 0, r => r
  | n + 1, r =>
    match r.worklist with
    | [] => r
    | v :: rest => steps p n (visit p { r with worklist := rest } v)
termination_by structural n => n

end Run

/-! ## Solving -/

/-- How a module is to be solved. -/
structure Options where
  /-- Nodes on a cycle of copies share a set. -/
  shareCycles : Bool := true
  /-- How many nodes may be looked at; zero sets no limit. -/
  limit : Nat := 0

/-- The edges that the copies of a constraint set stand for, source first. -/
def copyEdges (s : ConstraintSet) : List (Node × Node) :=
  s.constraints.filterMap fun
    | .copy x y => some (y.index, x.index)
    | _ => none

/-- Files each pair under its first component, in order. -/
def fileUnder {β : Type} (pairs : List (Node × β)) : Std.ExtTreeMap Node (List β) :=
  pairs.foldr (fun (v, b) m => m.insert v (b :: m.getD v [])) ∅

/-- The flow of a module whose nodes share sets as told. -/
def flowOf (m : Module) (s : ConstraintSet) (shared : Node → Node) : Flow where
  valueCount := m.valueCount
  shared := shared
  loads := fileUnder (s.constraints.filterMap fun
    | .load x p => some (shared p.index, shared x.index)
    | _ => none)
  stores := fileUnder (s.constraints.filterMap fun
    | .store p y => some (shared p.index, shared y.index)
    | _ => none)
  calls := fileUnder (s.indirectCalls.map fun c => (shared c.pointer.index, c))
  target? := fun o => m.definedFunctions.find? fun f => (m.function? f).any (·.address = o)
  bindings := fun f c => PointsTo.bindings m f c.call c.args

/-- The run before its first step: every object is where it is made, every copy
is an edge, and every node with a set is to be looked at. -/
def startOf (s : ConstraintSet) (shared : Node → Node) : Run :=
  let sets := s.constraints.foldl (fun m c =>
    match c with
    | .alloc x o =>
      let v := shared x.index
      m.insert v ((m.getD v (∅ : Objects)).insert o)
    | _ => m) (∅ : Std.ExtTreeMap Node Objects)
  let edges := (copyEdges s).foldl (fun m (u, v) =>
    let u := shared u
    let v := shared v
    if u = v then m else m.insert u ((m.getD u (∅ : Std.ExtTreeSet Node)).insert v))
    (∅ : Std.ExtTreeMap Node (Std.ExtTreeSet Node))
  { sets, edges, worklist := sets.keys }

/-- The numbers that occur as nodes of a constraint set. -/
def mentioned (s : ConstraintSet) : List Node :=
  s.constraints.flatMap (fun c => [c.lhs.index, c.rhs.index]) ++
  s.indirectCalls.flatMap fun c => c.call.index :: c.pointer.index :: c.args.map (·.index)

/-- More steps than any run can take: at most every node is looked at once for
itself and once for every object that reaches it. -/
def stepBound (m : Module) (s : ConstraintSet) : Nat :=
  let nodes := 2 * m.valueCount + (mentioned s).length +
    (m.definedFunctions.flatMap (returnedValues m)).length
  nodes * (m.valueCount + 1)

/-- The points-to facts of a module. -/
structure Solution where
  /-- The module's constraints. -/
  constraints : ConstraintSet
  /-- How many values the module has. -/
  valueCount : Nat
  /-- The cycles of copies. -/
  cycles : Partition Node
  /-- The finished run. -/
  run : Run

namespace Solution

/-- Solves a module. -/
def ofModule (m : Module) (o : Options) : Solution :=
  let constraints := ConstraintSet.ofModule m
  let cycles := Partition.ofEdges [] (if o.shareCycles then copyEdges constraints else [])
  let p := flowOf m constraints cycles.representative
  let limit := if o.limit = 0 then stepBound m constraints else o.limit
  { constraints, cycles
    valueCount := m.valueCount
    run := Run.steps p limit (startOf constraints cycles.representative) }

/-- The objects a value may point to.  A value that does not exist points nowhere. -/
def pointsTo (s : Solution) (v : ValueId) : Objects :=
  if v.index < s.valueCount then s.run.objects (s.cycles.representative v.index) else ∅

/-- The defined functions an indirect call may call, in order. -/
def indirectTargets (s : Solution) (call : ValueId) : List FunctionId :=
  (s.run.resolved.getD call ∅).toList

/-- Two values may point to the same object. -/
def mayAlias (s : Solution) (v w : ValueId) : Bool :=
  (s.pointsTo v).toList.any (s.pointsTo w).contains

/-- How many pairs of an indirect call and a function it calls were found. -/
def resolvedTargets (s : Solution) : Nat :=
  (s.run.resolved.toList.map fun (_, fs) => fs.size).foldl (· + ·) 0

end Solution

end PmemPaths.PointsTo
