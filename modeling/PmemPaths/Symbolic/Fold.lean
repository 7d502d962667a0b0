import PmemPaths.Symbolic.Term

/-!
# Folding constructors

Constructors that simplify on the way: constants are computed, neutral operands
disappear, and the constant of an equality or sum comes first.  Each makes at
most one new node, which gets the given mark; otherwise it gives one of the nodes
it was given.  Terms are compared by the expressions they stand for.
-/

namespace PmemPaths.Symbolic.Term

variable {ι : Type}

/-- A number cut down to a width.  Numbers have 64 bits at most. -/
def truncate (n width : Nat) : Nat := n % Nat.pow 2 (min width 64)

/-- A constant. -/
def mkConstant (m : ι) (n width : Nat) : Term ι := constant m (truncate n width) width

/-- A truth value. -/
def mkBool (m : ι) (b : Bool) : Term ι := mkConstant m b.toNat boolWidth

/-- A byte of an array. -/
def mkRead (m : ι) (a : SymbolicArray) (i : Nat) : Term ι := read m a i

/-- A negation. -/
def mkNot (m : ι) : Term ι → Term ι
  | constant _ n _ => mkBool m (n = 0)
  | not _ x => x
  | x => not m x

/-- An equality whose constant, if there is one, comes first. -/
def mkEqOrdered (m : ι) (x y : Term ι) : Term ι :=
  if x.plain = y.plain then mkBool m true
  else if y.width = boolWidth && x.isTrue then y
  else if y.width = boolWidth && x.isFalse then mkNot m y
  else eq m x y

/-- An equality. -/
def mkEq (m : ι) (x y : Term ι) : Term ι :=
  match x.constant?, y.constant? with
  | some a, some b => mkBool m (a = b)
  | none, some _ => mkEqOrdered m y x
  | _, _ => mkEqOrdered m x y

/-- A comparison. -/
def mkUlt (m : ι) (x y : Term ι) : Term ι :=
  match x.constant?, y.constant? with
  | some a, some b => mkBool m (a < b)
  | _, some 0 => mkBool m false
  | _, _ => if x.plain = y.plain then mkBool m false else ult m x y

/-- The term is the negation of an expression. -/
def isNegationOf (x : Term ι) (e : Expr) : Bool :=
  match x with
  | not _ y => y.plain = e
  | _ => false

/-- One of the terms is the negation of the other. -/
def complementary (x y : Term ι) : Bool := x.isNegationOf y.plain || y.isNegationOf x.plain

/-- A conjunction. -/
def mkAnd (m : ι) (x y : Term ι) : Term ι :=
  if x.isFalse || y.isFalse || complementary x y then mkBool m false
  else if x.isTrue then y
  else if y.isTrue || x.plain = y.plain then x
  else and m x y

/-- A disjunction. -/
def mkOr (m : ι) (x y : Term ι) : Term ι :=
  if x.isTrue || y.isTrue || complementary x y then mkBool m true
  else if x.isFalse then y
  else if y.isFalse || x.plain = y.plain then x
  else or m x y

/-- A sum. -/
def mkAdd (m : ι) (x y : Term ι) : Term ι :=
  match x.constant?, y.constant? with
  | some a, some b => mkConstant m ((a + b) % 0x10000000000000000) x.width
  | some 0, none => y
  | none, some 0 => x
  | none, some _ => add m y x
  | _, _ => add m x y

/-- A choice. -/
def mkSelect (m : ι) (c x y : Term ι) : Term ι :=
  if c.isTrue then x
  else if c.isFalse || x.plain = y.plain then y
  else select m c x y

/-- An operator applied to operands, with or without folding.  The operator is
given by its name, and there is no term if it takes another number of them. -/
def ofOperator? (folding : Bool) (m : ι) (operator : String) (operands : List (Term ι)) :
    Option (Term ι) :=
  match operator, operands with
  | "Eq", [x, y] => some (if folding then mkEq m x y else eq m x y)
  | "Ult", [x, y] => some (if folding then mkUlt m x y else ult m x y)
  | "And", [x, y] => some (if folding then mkAnd m x y else and m x y)
  | "Or", [x, y] => some (if folding then mkOr m x y else or m x y)
  | "Not", [x] => some (if folding then mkNot m x else not m x)
  | "Add", [x, y] => some (if folding then mkAdd m x y else add m x y)
  | "Select", [c, x, y] => some (if folding then mkSelect m c x y else select m c x y)
  | _, _ => none

end PmemPaths.Symbolic.Term
