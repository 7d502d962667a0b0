import PmemPaths.Graph.Components
import PmemPaths.Ir.Module
import Std.Data.ExtTreeMap

/-!
# Priorities

The priority of an instruction is the most weight a run can still collect from
it, when every instruction counts once.  Instructions that reach each other have
one priority: the sum of their weights and the best priority they can leave to.
The components of the control-flow graph come sinks first, so the priorities
they lead to are known when a component is looked at.

Weights and priorities add up to `maxPriority` and no further.
-/

namespace PmemPaths.Nvm

open PmemPaths.Ir (ValueId FunctionId Module)
open PmemPaths.Graph (Partition)

/-- A number for each of some instructions. -/
abbrev Table := Std.ExtTreeMap ValueId Nat

/-- The largest priority. -/
def maxPriority : Nat := 0xffffffffffffffff

/-- Addition that stops at the largest priority. -/
def addCapped (m n : Nat) : Nat := min (m + n) maxPriority

/-- The sum of weights, capped. -/
def sumCapped (ns : List Nat) : Nat := ns.foldl addCapped 0

/-- The largest of some numbers, zero when there are none. -/
def largest (ns : List Nat) : Nat := ns.foldl max 0

/-- The control-flow edges inside a function. -/
def flowEdges (m : Module) (f : FunctionId) : List (ValueId × ValueId) :=
  (m.instructionsOf f).flatMap fun v => (m.successors v).map fun w => (v, w)

/-- The priority of a component, when the priorities of the components it leads
to are known.  Its own instructions are not in the table yet and count nothing. -/
def componentPriority (m : Module) (weights known : Table) (component : List ValueId) : Nat :=
  addCapped (sumCapped (component.map fun v => weights.getD v 0))
    (largest ((component.flatMap m.successors).map fun w => known.getD w 0))

/-- The priorities of the instructions of a function.  An instruction without a
weight weighs nothing. -/
def priorities (m : Module) (f : FunctionId) (weights : Table) : Table :=
  let components := (Partition.ofEdges (m.instructionsOf f) (flowEdges m f)).components
  components.foldl (fun known c =>
    let p := componentPriority m weights known c
    c.foldl (fun known v => known.insert v p) known) ∅

end PmemPaths.Nvm
