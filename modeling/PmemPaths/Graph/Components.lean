import Std.Data.HashMap
import Std.Data.HashSet

/-!
# Strongly connected components

The components of a directed graph that is given by a list of nodes and a list
of edges.  Nodes may be mentioned by edges only, and edges may repeat.

One depth-first search finds them.  It numbers the nodes in the order in which
it meets them and keeps those whose component is not known yet on a stack.  A
*frame* is a node whose successors are being looked at, with the least number
known to be reachable from it.  When a node is left whose least number is its
own, the nodes above it on the stack are its component.  Every component is
found after all components it has edges into.

The search is a loop over an explicit list of frames, so the depth of the graph
does not matter.  Every step uses up a root, an edge or a frame, which bounds
the number of steps.
-/

namespace PmemPaths.Graph

variable {α : Type}

/-! ## The search -/

/-- A node whose successors are being looked at. -/
structure Frame (α : Type) where
  /-- The node. -/
  node : α
  /-- Its number. -/
  index : Nat
  /-- The least number on the stack known to be reachable from it. -/
  low : Nat
  /-- The successors not looked at yet. -/
  rest : List α

/-- What the search knows. -/
structure Search (α : Type) [BEq α] [Hashable α] where
  /-- The numbers of the nodes met so far. -/
  index : Std.HashMap α Nat := ∅
  /-- The nodes met whose component is not known yet, newest first. -/
  stack : List α := []
  /-- The position of each node's component. -/
  componentOf : Std.HashMap α Nat := ∅
  /-- The components found so far. -/
  components : Array (List α) := #[]

/-- A list up to and with the first occurrence of an element, and the rest. -/
def splitThrough [DecidableEq α] (x : α) : List α → List α × List α
  | [] => ([], [])
  | y :: ys =>
    if y = x then ([y], ys)
    else
      let (taken, rest) := splitThrough x ys
      (y :: taken, rest)
termination_by structural ys => ys

namespace Search

variable [DecidableEq α] [Hashable α]

/-- Meets a node, which gets the next number and a frame of its own. -/
def enter (succ : α → List α) (s : Search α) (v : α) : Search α × Frame α :=
  let i := s.index.size
  ({ s with index := s.index.insert v i, stack := v :: s.stack }, ⟨v, i, i, succ v⟩)

/-- Takes the component of a node off the stack. -/
def close (s : Search α) (v : α) : Search α :=
  let (members, stack) := splitThrough v s.stack
  { s with
    stack
    componentOf := members.foldl (fun m w => m.insert w s.components.size) s.componentOf
    components := s.components.push members }

/-- One step of the innermost frame: looks at one more successor, or leaves the
node when there is none. -/
def advance (succ : α → List α) (s : Search α) (f : Frame α) (outer : List (Frame α)) :
    Search α × List (Frame α) :=
  match f.rest with
  | w :: rest =>
    let f := { f with rest }
    match s.index[w]? with
    | none =>
      let (s, g) := s.enter succ w
      (s, g :: f :: outer)
    | some i =>
      if s.componentOf.contains w then (s, f :: outer)
      else (s, { f with low := min f.low i } :: outer)
  | [] =>
    let outer := match outer with
      | [] => []
      | g :: gs => { g with low := min g.low f.low } :: gs
    (if f.low = f.index then s.close f.node else s, outer)

/-- Searches from the frames, then from the roots that were not met, for at
most so many steps. -/
def run (succ : α → List α) : Nat → Search α → List (Frame α) → List α → Search α
  | 0, s, _, _ => s
  | _ + 1, s, [], [] => s
  | n + 1, s, [], r :: roots =>
    if s.index.contains r then run succ n s [] roots
    else
      let (s, f) := s.enter succ r
      run succ n s [f] roots
  | n + 1, s, f :: outer, roots =>
    let (s, frames) := s.advance succ f outer
    run succ n s frames roots
termination_by structural n => n

end Search

/-! ## The partition of a graph -/

/-- The targets of the edges of each node, in the order of the edges. -/
def successorTable [DecidableEq α] [Hashable α] (edges : List (α × α)) :
    Std.HashMap α (List α) :=
  edges.foldr (fun (u, v) m => m.insert u (v :: m.getD u [])) ∅

/-- The nodes in the order in which the search looks at them: those listed, then
the ends of the edges. -/
def rootOrder (nodes : List α) (edges : List (α × α)) : List α :=
  nodes ++ edges.flatMap fun (u, v) => [u, v]

/-- The least element of a list. -/
def least? [Ord α] : List α → Option α
  | [] => none
  | x :: xs => some (xs.foldl (fun y z => if (compare z y).isLT then z else y) x)

/-- The components of a graph. -/
structure Partition (α : Type) [BEq α] [Hashable α] where
  /-- The components, each after those it has edges into. -/
  components : List (List α)
  /-- The position of each node's component. -/
  componentOf : Std.HashMap α Nat
  /-- The least member of each node's component. -/
  leastOf : Std.HashMap α α
  /-- The nodes that lie on a cycle. -/
  cyclic : Std.HashSet α
  /-- How many edges the graph was given by. -/
  edgeCount : Nat

/-- The size of a partition in numbers. -/
structure PartitionStats where
  /-- The number of nodes. -/
  nodes : Nat
  /-- The number of edges. -/
  edges : Nat
  /-- The number of components with a cycle. -/
  cyclicComponents : Nat
  /-- The number of nodes of the largest component. -/
  largest : Nat
  /-- The number of nodes left out when each component with a cycle keeps one. -/
  collapsed : Nat
deriving DecidableEq, Repr

namespace Partition

variable [DecidableEq α] [Hashable α] [Ord α]

/-- The components of the graph with these nodes and edges. -/
def ofEdges (nodes : List α) (edges : List (α × α)) : Partition α :=
  let table := successorTable edges
  let roots := rootOrder nodes edges
  let found := Search.run (fun v => table.getD v []) (2 * roots.length + edges.length) {} [] roots
  let components := found.components.toList
  let loops : Std.HashSet α := .ofList ((edges.filter fun (u, v) => u = v).map (·.1))
  let onCycle := components.filter fun c => 1 < c.length || c.any loops.contains
  { components
    componentOf := found.componentOf
    leastOf := components.foldl
      (fun m c => (least? c).elim m fun r => c.foldl (fun m v => m.insert v r) m) ∅
    cyclic := onCycle.foldl (fun s c => s.insertMany c) ∅
    edgeCount := edges.length }

omit [Ord α]

/-- The component stands for a cycle of the graph. -/
def isCyclic (p : Partition α) (c : List α) : Bool := c.any p.cyclic.contains

/-- The least member of a node's component.  A node the graph does not have
stands for itself. -/
def representative (p : Partition α) (v : α) : α := p.leastOf.getD v v

/-- Two nodes are in one component.  A node the graph does not have is alone. -/
def sameComponent (p : Partition α) (u v : α) : Bool :=
  match p.componentOf[u]?, p.componentOf[v]? with
  | some i, some j => i = j
  | _, _ => u = v

/-- The partition in numbers. -/
def stats (p : Partition α) : PartitionStats :=
  let onCycle := p.components.filter p.isCyclic
  { nodes := p.componentOf.size
    edges := p.edgeCount
    cyclicComponents := onCycle.length
    largest := (p.components.map (·.length)).max?.getD 0
    collapsed := (onCycle.map (·.length - 1)).foldl (· + ·) 0 }

end Partition

end PmemPaths.Graph
