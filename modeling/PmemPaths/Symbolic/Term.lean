import Std.Data.ExtTreeMap

/-!
# Terms

A small language of bit vectors: constants, bytes of symbolic arrays,
comparisons, connectives, addition and choice.  Comparisons and connectives have
one bit.

Every node carries a mark.  The terms most of the library works with are the
plain ones, `Expr`, whose marks say nothing.  Labelled terms keep apart nodes
that were built at different places though they look alike; the expression a
labelled term stands for is `Term.plain`.

Plain expressions are ordered: by kind first, in the order of the constructors
below, and by their parts from left to right then.  Listing the kinds and
numbers of a term in prefix order gives a list of numbers, its `key`, and the
order of the keys is that order.  `key_injective` says that a key determines its
expression, so the order is a lawful one.
-/

namespace PmemPaths.Symbolic

/-- An array of symbolic bytes. -/
structure SymbolicArray where
  /-- Its name. -/
  name : String
  /-- Its number of bytes. -/
  size : Nat
deriving DecidableEq, Hashable, Repr

/-- A bit-vector term with a mark on each node. -/
inductive Term (ι : Type) where
  /-- A number of so many bits. -/
  | constant (mark : ι) (value width : Nat)
  /-- A byte of an array. -/
  | read (mark : ι) (array : SymbolicArray) (index : Nat)
  /-- The operands are equal. -/
  | eq (mark : ι) (left right : Term ι)
  /-- The left operand is less, as an unsigned number. -/
  | ult (mark : ι) (left right : Term ι)
  /-- Both operands hold. -/
  | and (mark : ι) (left right : Term ι)
  /-- An operand holds. -/
  | or (mark : ι) (left right : Term ι)
  /-- The operand does not hold. -/
  | not (mark : ι) (operand : Term ι)
  /-- The sum of the operands. -/
  | add (mark : ι) (left right : Term ι)
  /-- One of two terms, as the condition says. -/
  | select (mark : ι) (condition yes no : Term ι)
deriving DecidableEq, Repr

/-- A term whose nodes have no identity. -/
abbrev Expr := Term Unit

/-- The width of a truth value. -/
def boolWidth : Nat := 1

/-- The width of a byte. -/
def byteWidth : Nat := 8

namespace Term

variable {ι : Type}

/-- The mark of the topmost node. -/
def mark : Term ι → ι
  | constant m _ _ | read m _ _ | eq m _ _ | ult m _ _ | and m _ _ | or m _ _ | not m _
  | add m _ _ | select m _ _ _ => m

/-- The expression a term stands for. -/
def plain : Term ι → Expr
  | constant _ n w => constant () n w
  | read _ a i => read () a i
  | eq _ x y => eq () x.plain y.plain
  | ult _ x y => ult () x.plain y.plain
  | and _ x y => and () x.plain y.plain
  | or _ x y => or () x.plain y.plain
  | not _ x => not () x.plain
  | add _ x y => add () x.plain y.plain
  | select _ c x y => select () c.plain x.plain y.plain

@[simp] theorem plain_self (e : Expr) : e.plain = e := by
  induction e <;> simp_all [plain]

/-- How many bits a term has. -/
def width : Term ι → Nat
  | constant _ _ w => w
  | read _ _ _ => byteWidth
  | eq _ _ _ | ult _ _ _ | and _ _ _ | or _ _ _ | not _ _ => boolWidth
  | add _ x _ => x.width
  | select _ _ x _ => x.width

/-- How many nodes a term has. -/
def size : Term ι → Nat
  | constant _ _ _ | read _ _ _ => 1
  | not _ x => x.size + 1
  | eq _ x y | ult _ x y | and _ x y | or _ x y | add _ x y => x.size + y.size + 1
  | select _ c x y => c.size + x.size + y.size + 1

/-- The value of a constant. -/
def constant? : Term ι → Option Nat
  | constant _ n _ => some n
  | _ => none

/-- The term is a constant. -/
def isConstant (t : Term ι) : Bool := t.constant?.isSome

/-- The term is the truth value true. -/
def isTrue : Term ι → Bool
  | constant _ n w => n = 1 && w = boolWidth
  | _ => false

/-- The term is the truth value false. -/
def isFalse : Term ι → Bool
  | constant _ n w => n = 0 && w = boolWidth
  | _ => false

/-- The operands of the topmost node. -/
def children : Term ι → List (Term ι)
  | constant _ _ _ | read _ _ _ => []
  | not _ x => [x]
  | eq _ x y | ult _ x y | and _ x y | or _ x y | add _ x y => [x, y]
  | select _ c x y => [c, x, y]

/-- The name of the topmost node's kind. -/
def name : Term ι → String
  | constant _ _ _ => "Const"
  | read _ _ _ => "Read"
  | eq _ _ _ => "Eq"
  | ult _ _ _ => "Ult"
  | and _ _ _ => "And"
  | or _ _ _ => "Or"
  | not _ _ => "Not"
  | add _ _ _ => "Add"
  | select _ _ _ _ => "Select"

/-- The text of a term, operators first. -/
def text : Term ι → String
  | constant _ n w => if w = boolWidth then toString (n ≠ 0 : Bool) else toString n
  | read _ a i => "(Read w8 " ++ toString i ++ " " ++ a.name ++ ")"
  | eq _ x y => "(Eq " ++ x.text ++ " " ++ y.text ++ ")"
  | ult _ x y => "(Ult " ++ x.text ++ " " ++ y.text ++ ")"
  | and _ x y => "(And " ++ x.text ++ " " ++ y.text ++ ")"
  | or _ x y => "(Or " ++ x.text ++ " " ++ y.text ++ ")"
  | not _ x => "(Not " ++ x.text ++ ")"
  | add _ x y => "(Add w" ++ toString x.width ++ " " ++ x.text ++ " " ++ y.text ++ ")"
  | select _ c x y => "(Select " ++ c.text ++ " " ++ x.text ++ " " ++ y.text ++ ")"

/-! ## The order of expressions -/

/-- The characters of a name as numbers above zero, and a zero to end them. -/
def nameKey (s : String) : List Nat := s.toList.map (·.toNat + 1) ++ [0]

/-- The kinds and numbers of an expression in prefix order, before those of what
comes after it. -/
def keyThen : Expr → List Nat → List Nat
  | constant _ n w, r => 0 :: n :: w :: r
  | read _ a i, r => 1 :: (nameKey a.name ++ a.size :: i :: r)
  | eq _ x y, r => 2 :: x.keyThen (y.keyThen r)
  | ult _ x y, r => 3 :: x.keyThen (y.keyThen r)
  | and _ x y, r => 4 :: x.keyThen (y.keyThen r)
  | or _ x y, r => 5 :: x.keyThen (y.keyThen r)
  | not _ x, r => 6 :: x.keyThen r
  | add _ x y, r => 7 :: x.keyThen (y.keyThen r)
  | select _ c x y, r => 8 :: c.keyThen (x.keyThen (y.keyThen r))

/-- The kinds and numbers of an expression in prefix order. -/
def key (e : Expr) : List Nat := e.keyThen []

theorem nameChars_inj {s t : List Char} {r q : List Nat}
    (h : s.map (·.toNat + 1) ++ 0 :: r = t.map (·.toNat + 1) ++ 0 :: q) : s = t ∧ r = q := by
  induction s generalizing t with
  | nil => cases t <;> simp_all
  | cons c s ih =>
    cases t with
    | nil => simp at h
    | cons d t =>
      simp only [List.map_cons, List.cons_append, List.cons.injEq, Nat.add_right_cancel_iff] at h
      obtain ⟨rfl, rfl⟩ := ih h.2
      exact ⟨congrArg (· :: s) (Char.toNat_inj.mp h.1), rfl⟩

theorem keyThen_inj {e f : Expr} {r q : List Nat} (h : e.keyThen r = f.keyThen q) :
    e = f ∧ r = q := by
  induction e generalizing f r q with
  | constant _ n w =>
    cases f with
    | constant _ n' w' =>
      simp only [keyThen, List.cons.injEq, true_and] at h
      obtain ⟨rfl, rfl, h₁⟩ := h
      exact ⟨rfl, h₁⟩
    | _ => simp [keyThen] at h
  | read _ a i =>
    cases f with
    | read _ b j =>
      cases a
      cases b
      simp only [keyThen, nameKey, List.append_assoc, List.cons_append, List.nil_append,
        List.cons.injEq, true_and] at h
      obtain ⟨hn, hr⟩ := nameChars_inj h
      simp only [List.cons.injEq] at hr
      obtain ⟨rfl, rfl, h₁⟩ := hr
      obtain rfl := String.toList_inj.mp hn
      exact ⟨rfl, h₁⟩
    | _ => simp [keyThen] at h
  | not _ x ih =>
    cases f with
    | not _ y =>
      obtain ⟨hx, h₁⟩ := ih (List.cons.inj h).2
      subst hx
      exact ⟨rfl, h₁⟩
    | _ => simp [keyThen] at h
  | select _ c x y ihc ihx ihy =>
    cases f with
    | select _ c' x' y' =>
      obtain ⟨hc, h₁⟩ := ihc (List.cons.inj h).2
      obtain ⟨hx, h₂⟩ := ihx h₁
      obtain ⟨hy, h₃⟩ := ihy h₂
      subst hc hx hy
      exact ⟨rfl, h₃⟩
    | _ => simp [keyThen] at h
  | eq _ x y ihx ihy =>
    cases f with
    | eq _ x' y' =>
      obtain ⟨hx, h₁⟩ := ihx (List.cons.inj h).2
      obtain ⟨hy, h₂⟩ := ihy h₁
      subst hx hy
      exact ⟨rfl, h₂⟩
    | _ => simp [keyThen] at h
  | ult _ x y ihx ihy =>
    cases f with
    | ult _ x' y' =>
      obtain ⟨hx, h₁⟩ := ihx (List.cons.inj h).2
      obtain ⟨hy, h₂⟩ := ihy h₁
      subst hx hy
      exact ⟨rfl, h₂⟩
    | _ => simp [keyThen] at h
  | and _ x y ihx ihy =>
    cases f with
    | and _ x' y' =>
      obtain ⟨hx, h₁⟩ := ihx (List.cons.inj h).2
      obtain ⟨hy, h₂⟩ := ihy h₁
      subst hx hy
      exact ⟨rfl, h₂⟩
    | _ => simp [keyThen] at h
  | or _ x y ihx ihy =>
    cases f with
    | or _ x' y' =>
      obtain ⟨hx, h₁⟩ := ihx (List.cons.inj h).2
      obtain ⟨hy, h₂⟩ := ihy h₁
      subst hx hy
      exact ⟨rfl, h₂⟩
    | _ => simp [keyThen] at h
  | add _ x y ihx ihy =>
    cases f with
    | add _ x' y' =>
      obtain ⟨hx, h₁⟩ := ihx (List.cons.inj h).2
      obtain ⟨hy, h₂⟩ := ihy h₁
      subst hx hy
      exact ⟨rfl, h₂⟩
    | _ => simp [keyThen] at h

theorem key_injective {e f : Expr} (h : e.key = f.key) : e = f := (keyThen_inj h).1

instance : Ord Expr := ⟨fun e f => compare e.key f.key⟩

theorem compare_eq (e f : Expr) : compare e f = compare e.key f.key := rfl

instance : Std.TransOrd Expr where
  eq_swap {e f} := by
    rw [compare_eq, compare_eq f e]
    exact Std.OrientedOrd.eq_swap
  isLE_trans {e f g} h₁ h₂ := by
    rw [compare_eq] at *
    exact Std.TransOrd.isLE_trans h₁ h₂

instance : Std.LawfulEqOrd Expr where
  eq_of_compare h := key_injective (Std.LawfulEqOrd.eq_of_compare h)

end Term

end PmemPaths.Symbolic
