import PmemPaths.Outcome
import PmemPaths.Symbolic.Replace

/-!
# Path conditions

What is known to hold on a path: a set of constraints, kept simplified against
each other.  A conjunction is stored as its members.  Once `c = x` is known for a
constant `c`, every other constraint gets `c` in place of `x`, and what comes out
of that is added like a new constraint, which may cause more replacements.

A constraint is an expression, and of equal ones only one is stored.  It is kept
as the node that it was first added as, since later replacements look at the
identities of nodes.

Adding ends, because the constraints that a changed constraint meets are fewer:
the equality that caused the change is not among them, and the change does not
make anything larger.  So the nesting is bounded by the number of nodes.
-/

namespace PmemPaths.Symbolic

/-- What holds on a path. -/
structure PathCondition where
  /-- The constraints, and the node that each was added as. -/
  constraints : Std.ExtTreeMap Expr Node
  /-- The node of a constraint stands for it. -/
  plain_eq : ∀ (e : Expr) (t : Node), constraints[e]? = some t → t.plain = e

namespace PathCondition

/-- Nothing is known at first. -/
instance : EmptyCollection PathCondition := ⟨⟨∅, by simp⟩⟩

/-- The constraints in order, as expressions. -/
def toList (p : PathCondition) : List Expr := p.constraints.keys

/-- The constraints in order, as nodes. -/
def terms (p : PathCondition) : List Node := p.constraints.values

/-- Nothing is known. -/
def isEmpty (p : PathCondition) : Bool := p.constraints.isEmpty

/-- How many constraints there are. -/
def size (p : PathCondition) : Nat := p.constraints.size

/-- The constraint is stored. -/
def contains (p : PathCondition) (e : Expr) : Bool := p.constraints.contains e

/-- The same constraints are stored. -/
def same (p q : PathCondition) : Bool := p.toList = q.toList

/-- A constraint is stored as it is, unless it is stored already. -/
def insert (p : PathCondition) (t : Node) : PathCondition where
  constraints := p.constraints.insertIfNew t.plain t
  plain_eq e u h := by grind [p.plain_eq e u]

/-- A constraint is stored as it is, also if it is stored already. -/
def put (p : PathCondition) (t : Node) : PathCondition where
  constraints := p.constraints.insert t.plain t
  plain_eq e u h := by grind [p.plain_eq e u]

/-- A constraint is forgotten. -/
def erase (p : PathCondition) (e : Expr) : PathCondition where
  constraints := p.constraints.erase e
  plain_eq d u h := by grind [p.plain_eq d u]

/-- The path condition with these constraints as they are.  Of equal ones the last
node is kept. -/
def ofList (ts : List Node) : PathCondition := ts.foldl put ∅

/-- The replacement that a fact allows: the constant for the other side of an
equality, true for anything else. -/
def replacement : Node → Expr × Node
  | t@(.eq _ l r) => if l.isConstant then (r.plain, l) else (t.plain, .mkBool none true)
  | t => (t.plain, .mkBool none true)

/-- The replacements that all constraints allow.  Of several for one expression,
that of the greatest constraint. -/
def replacements (p : PathCondition) : Replacements :=
  p.terms.foldl (fun table c => table.insert (replacement c).1 (replacement c).2) ∅

/-- A term simplified under what is known. -/
def simplify (p : PathCondition) (t : Node) : Node :=
  if t.isConstant || p.isEmpty then t else t.replace p.replacements

/-- All constraints after one replacement.  Those that change are added anew by
`add`. -/
def replaceAll (add : PathCondition → Node → Except Abort PathCondition) (p : PathCondition)
    (r : Expr × Node) : Except Abort PathCondition :=
  p.terms.foldlM (fun q c =>
    let t := c.replace ((∅ : Replacements).insert r.1 r.2)
    if t.plain = c.plain then .ok (q.insert c) else add q t) ∅

/-- Adds a simplified constraint, with at most so much nesting. -/
def addWithin : Nat → PathCondition → Node → Except Abort PathCondition
  | 0, p, t => .ok (p.insert t)
  | n + 1, p, t =>
    match t with
    | .constant _ v _ => if v = 0 then .error .falseConstraint else .ok p
    | .and _ x y => do
      let p ← addWithin n p x
      addWithin n p y
    | .eq _ l r =>
      if l.isConstant then do
        let p ← replaceAll (addWithin n) p (r.plain, l)
        return p.insert t
      else .ok (p.insert t)
    | _ => .ok (p.insert t)
termination_by structural n => n

/-- The number of nodes of all constraints. -/
def nodes (p : PathCondition) : Nat := (p.toList.map Term.size).foldl (· + ·) 0

/-- Adds a simplified constraint. -/
def addSimplified (p : PathCondition) (t : Node) : Except Abort PathCondition :=
  addWithin (p.nodes + t.size + 1) p t

/-- Adds a constraint. -/
def add (p : PathCondition) (t : Node) : Except Abort PathCondition :=
  p.addSimplified (p.simplify t)

/-- The constraints simplified under a fact that is not stored itself. -/
def assume (p : PathCondition) (t : Node) : Except Abort PathCondition :=
  p.replaceAll (addWithin (p.nodes + 1)) (replacement t)

/-- The constraints, one to a line. -/
def text (p : PathCondition) : String := String.join (p.toList.map fun e => e.text ++ "\n")

end PathCondition

end PmemPaths.Symbolic
