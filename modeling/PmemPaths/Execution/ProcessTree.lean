import PmemPaths.Outcome

/-!
# Process trees

How the states of a program came from each other.  A leaf holds a state; when
the state forks, the leaf gets two children that hold the state and its copy.
When the leaf of a state is removed, so are the inner nodes that have no child
left.  Numbers of nodes are never used again.
-/

namespace PmemPaths.Execution

/-- The text of a state's number, `S1`. -/
def stateText (n : Nat) : String := "S" ++ toString n

/-- A node of a process tree. -/
structure TreeNode where
  /-- The node it was split from. -/
  parent : Option Nat
  /-- The child of the state that forked. -/
  left : Option Nat := none
  /-- The child of its copy. -/
  right : Option Nat := none
  /-- The state, on leaves. -/
  state : Option Nat
deriving DecidableEq, Repr

namespace TreeNode

/-- The node has no children. -/
def isLeaf (n : TreeNode) : Bool := n.left.isNone && n.right.isNone

/-- The node without one of its children. -/
def dropChild (child : Nat) (n : TreeNode) : TreeNode :=
  { n with
    left := if n.left = some child then none else n.left
    right := if n.right = some child then none else n.right }

end TreeNode

/-- A process tree. -/
structure ProcessTree where
  /-- The nodes by number; a removed one is missing. -/
  nodes : Array (Option TreeNode)
deriving DecidableEq, Repr

namespace ProcessTree

/-- The number of the root. -/
def root : Nat := 0

/-- The tree of one state. -/
def ofState (state : Nat) : ProcessTree := ⟨#[some { parent := none, state := some state }]⟩

/-- The node of a number, as long as it is not removed. -/
def node? (t : ProcessTree) (n : Nat) : Option TreeNode := (t.nodes[n]?).bind fun x => x

/-- How many nodes there are. -/
def size (t : ProcessTree) : Nat := (t.nodes.toList.filter (·.isSome)).length

/-- All nodes are removed. -/
def isEmpty (t : ProcessTree) : Bool := t.size = 0

/-- Splits a leaf into two that hold the given states.  Gives the new leaves. -/
def attach (t : ProcessTree) (n left right : Nat) : Except Abort (ProcessTree × Nat × Nat) :=
  match t.node? n with
  | none => .error .notLiveLeaf
  | some node =>
    if node.isLeaf then
      let l := t.nodes.size
      let r := l + 1
      let inner : TreeNode := { node with left := some l, right := some r, state := none }
      .ok (⟨((t.nodes.setIfInBounds n (some inner)).push
        (some { parent := some n, state := some left })).push
        (some { parent := some n, state := some right })⟩, l, r)
    else .error .notLiveLeaf

/-- Removes a childless node and then its ancestors, as far as they have no other
child, at most so many of them. -/
def removeUp : Nat → ProcessTree → Nat → ProcessTree
  | 0, t, _ => t
  | k + 1, t, n =>
    match t.node? n with
    | none => t
    | some node =>
      if node.isLeaf then
        let nodes := t.nodes.setIfInBounds n none
        match node.parent with
        | none => ⟨nodes⟩
        | some p => removeUp k ⟨nodes.modify p (·.map (·.dropChild n))⟩ p
      else t
termination_by structural k => k

/-- Removes a leaf and every ancestor left without children.  Each step removes a
node, which bounds the number of steps. -/
def remove (t : ProcessTree) (n : Nat) : ProcessTree := removeUp t.nodes.size t n

/-- The leaves with their states, by number. -/
def leaves (t : ProcessTree) : List (Nat × Nat) :=
  (List.range t.nodes.size).filterMap fun n =>
    ((t.node? n).bind (·.state)).map fun s => (n, s)

end ProcessTree

end PmemPaths.Execution
