import PmemPaths.Outcome
import PmemPaths.Symbolic.Fold
import PmemPaths.Text.Column

/-!
# Memory objects

An object is a range of addresses with an identity.  Its contents are kept
apart, since each path of the program has contents of its own.  A byte is an
expression of eight bits.
-/

namespace PmemPaths.Memory

open PmemPaths.Symbolic (Expr Term SymbolicArray)

/-- The identity of an object. -/
structure ObjectId where
  /-- Its number. -/
  number : Nat
deriving DecidableEq, Hashable, Repr

namespace ObjectId

/-- The text of an identity, `MO1`. -/
def text (i : ObjectId) : String := "MO" ++ toString i.number

instance : Ord ObjectId := ⟨fun i j => compare i.number j.number⟩

theorem compare_eq (i j : ObjectId) : compare i j = compare i.number j.number := rfl

instance : Std.TransOrd ObjectId where
  eq_swap {i j} := by
    rw [compare_eq, compare_eq j i]
    exact Std.OrientedOrd.eq_swap
  isLE_trans {i j k} h₁ h₂ := by
    rw [compare_eq] at *
    exact Std.TransOrd.isLE_trans h₁ h₂

instance : Std.LawfulEqOrd ObjectId where
  eq_of_compare {i j} h := by
    rw [compare_eq] at h
    cases i
    cases j
    exact congrArg mk (Std.LawfulEqOrd.eq_of_compare h)

end ObjectId

/-- Hands out identities that nothing has yet. -/
structure ObjectSupply where
  /-- The next number. -/
  next : Nat := 1
deriving DecidableEq, Repr

/-- An identity, and the supply without it. -/
def ObjectSupply.take (s : ObjectSupply) : ObjectId × ObjectSupply := (⟨s.next⟩, ⟨s.next + 1⟩)

/-- A range of addresses. -/
structure MemoryObject where
  /-- Its identity. -/
  id : ObjectId
  /-- Its first address. -/
  address : Nat
  /-- Its number of bytes. -/
  size : Nat
  /-- Its name. -/
  name : String
  /-- It stands for memory of the host at that very address. -/
  isFixed : Bool := false
deriving DecidableEq, Repr

namespace MemoryObject

/-- What the names of objects that stand for memory of the host start with. -/
def fixedMark : String := "fixed@"

/-- An object that stands for memory of the host. -/
def fixed (id : ObjectId) (address size : Nat) : MemoryObject where
  id := id
  address := address
  size := size
  name := fixedMark ++ Text.hex address
  isFixed := true

/-- The address lies in the object. -/
def contains (o : MemoryObject) (address : Nat) : Bool :=
  o.address ≤ address && address - o.address < o.size

/-- Where in the object the address lies. -/
def offset? (o : MemoryObject) (address : Nat) : Option Nat :=
  if o.contains address then some (address - o.address) else none

end MemoryObject

/-- The bytes of an object on one path. -/
structure Contents where
  /-- The bytes. -/
  bytes : Array Expr
  /-- They must not be written. -/
  readOnly : Bool := false
deriving DecidableEq

namespace Contents

/-- The most bytes that contents can have. -/
def maxSize : Nat := 0xfffffffffffffff

/-- So many zero bytes. -/
def zero (size : Nat) : Except Abort Contents :=
  if maxSize < size then .error .noRoom
  else .ok ⟨.replicate size (.mkConstant () 0 Symbolic.byteWidth), false⟩

/-- The first bytes of a symbolic array.  Indices of arrays have 32 bits, and so
has the number of bytes. -/
def symbolic (a : SymbolicArray) (size : Nat) : Contents :=
  ⟨(Array.range (size % 0x100000000)).map (Term.mkRead () a), false⟩

/-- The number of bytes. -/
def size (c : Contents) : Nat := c.bytes.size

/-- The byte at an offset. -/
def read? (c : Contents) (offset : Nat) : Option Expr := c.bytes[offset]?

/-- The contents with another byte at an offset, if it may be written. -/
def write? (c : Contents) (offset : Nat) (e : Expr) : Option Contents :=
  if c.readOnly || c.bytes.size ≤ offset then none
  else some { c with bytes := c.bytes.setIfInBounds offset e }

/-- Two contents in one: a byte that differs is the first where the guard holds
and the second elsewhere.  Contents that must not be written stay as they are. -/
def merge (guard : Expr) (mine theirs : Contents) : Contents :=
  if mine.readOnly then mine
  else
    { mine with
      bytes := mine.bytes.mapIdx fun i x =>
        match theirs.read? i with
        | some y => if x = y then x else .mkSelect () guard x y
        | none => x }

end Contents

end PmemPaths.Memory
