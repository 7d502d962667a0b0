import PmemPaths.Symbolic.Fold

/-!
# Replacement

Sub-terms are replaced, the outermost first, and the nodes above what was
replaced are folded.  A node stays as it is when all its operands came back as
the very nodes they were, so what is not touched keeps the shape it was built
with.

Whether an operand came back as the very node it was is told by the marks, which
are the identities of nodes here.  What a node stands for does not tell: a node
may be replaced by another one that looks alike, and what is above it is folded
all the same.
-/

namespace PmemPaths.Symbolic

/-- The identity of a node: a number, or none for a node made above a replacement,
which is no other node. -/
abbrev Label := Option Nat

/-- A term whose nodes have identities. -/
abbrev Node := Term Label

/-- A table of replacements. -/
abbrev Replacements := Std.ExtTreeMap Expr Node

namespace Term

/-- Both are the very same node. -/
def isNode (x y : Node) : Bool := x.mark.isSome && x.mark = y.mark

/-- What became of a node. -/
structure Replaced where
  /-- The node in its place. -/
  term : Node
  /-- It is another node. -/
  changed : Bool

/-- A node in place of another. -/
def Replaced.instead (t r : Node) : Replaced := ⟨r, !r.isNode t⟩

/-- A node with one operand, after the operand. -/
def rebuild₁ (t : Node) (make : Node → Node) (x : Replaced) : Replaced :=
  if x.changed then .instead t (make x.term) else ⟨t, false⟩

/-- A node with two operands, after the operands. -/
def rebuild₂ (t : Node) (make : Node → Node → Node) (x y : Replaced) : Replaced :=
  if x.changed || y.changed then .instead t (make x.term y.term) else ⟨t, false⟩

/-- A node with three operands, after the operands. -/
def rebuild₃ (t : Node) (make : Node → Node → Node → Node) (x y z : Replaced) : Replaced :=
  if x.changed || y.changed || z.changed then .instead t (make x.term y.term z.term)
  else ⟨t, false⟩

/-- Replaces the expressions of a term for which there is a replacement. -/
def replaceNode (find : Expr → Option Node) (t : Node) : Replaced :=
  match find t.plain with
  | some r => .instead t r
  | none =>
    match t with
    | constant _ _ _ | read _ _ _ => ⟨t, false⟩
    | not _ x => rebuild₁ t (mkNot none) (replaceNode find x)
    | eq _ x y => rebuild₂ t (mkEq none) (replaceNode find x) (replaceNode find y)
    | ult _ x y => rebuild₂ t (mkUlt none) (replaceNode find x) (replaceNode find y)
    | and _ x y => rebuild₂ t (mkAnd none) (replaceNode find x) (replaceNode find y)
    | or _ x y => rebuild₂ t (mkOr none) (replaceNode find x) (replaceNode find y)
    | add _ x y => rebuild₂ t (mkAdd none) (replaceNode find x) (replaceNode find y)
    | select _ c x y =>
      rebuild₃ t (mkSelect none) (replaceNode find c) (replaceNode find x) (replaceNode find y)
termination_by structural t

/-- The term with the replacements of a table. -/
def replace (table : Replacements) (t : Node) : Node := (t.replaceNode fun e => table[e]?).term

example : (replaceNode (fun _ => some (constant (some 0) 5 8)) (constant (some 0) 5 8)).changed =
    false := by decide +kernel

example : (replaceNode (fun _ => some (constant (some 1) 5 8)) (constant (some 0) 5 8)).changed =
    true := by decide +kernel

end Term

end PmemPaths.Symbolic
