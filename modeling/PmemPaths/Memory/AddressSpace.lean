import PmemPaths.Memory.Object
import Std.Data.ExtTreeMap

/-!
# Address spaces

The objects of one path with their contents, by first address.  An address is
looked up in the object with the greatest first address that is not above it.
Where objects do not overlap, that is the one object that can contain it.
-/

namespace PmemPaths.Memory

open PmemPaths.Symbolic (Expr)

/-- An object and its contents. -/
structure Binding where
  /-- The object. -/
  object : MemoryObject
  /-- Its contents. -/
  contents : Contents
deriving DecidableEq

/-- The memory of a path. -/
structure AddressSpace where
  /-- The bound objects, by first address. -/
  bindings : Std.ExtTreeMap Nat Binding := ∅

namespace AddressSpace

/-- The bound objects in the order of their addresses. -/
def toList (s : AddressSpace) : List Binding := s.bindings.toList.map (·.2)

/-- How many objects are bound. -/
def size (s : AddressSpace) : Nat := s.bindings.size

/-- No object is bound. -/
def isEmpty (s : AddressSpace) : Bool := s.bindings.isEmpty

/-- Binds an object, in place of one with the same first address. -/
def bind (s : AddressSpace) (o : MemoryObject) (c : Contents) : AddressSpace :=
  ⟨s.bindings.insert o.address ⟨o, c⟩⟩

/-- The object itself is bound at its address. -/
def binds (s : AddressSpace) (o : MemoryObject) : Bool :=
  s.bindings[o.address]?.any (·.object.id = o.id)

/-- Unbinds an object, if it is the one bound at its address. -/
def unbind (s : AddressSpace) (o : MemoryObject) : AddressSpace :=
  if s.binds o then ⟨s.bindings.erase o.address⟩ else s

/-- The first object with an identity. -/
def find? (s : AddressSpace) (id : ObjectId) : Option Binding :=
  s.toList.find? (·.object.id = id)

/-- The object that contains an address. -/
def resolve? (s : AddressSpace) (address : Nat) : Option Binding :=
  (s.bindings.getEntryLE? address).bind fun (_, b) =>
    if b.object.contains address then some b else none

/-- Changes the contents of the object that contains an address. -/
def modify? {β : Type} (s : AddressSpace) (address : Nat) (f : Contents → Contents × β) :
    Option (AddressSpace × β) :=
  (s.bindings.getEntryLE? address).bind fun (k, b) =>
    if b.object.contains address then
      let (contents, result) := f b.contents
      some (⟨s.bindings.insert k { b with contents }⟩, result)
    else none

/-- Writes at an offset of the object that contains an address.  The result tells
whether the byte was written; there is none without an object. -/
def writeAt? (s : AddressSpace) (address offset : Nat) (e : Expr) :
    Option (AddressSpace × Bool) :=
  s.modify? address fun c =>
    match c.write? offset e with
    | some c => (c, true)
    | none => (c, false)

/-- Makes the object that contains an address writable or not. -/
def setReadOnly? (s : AddressSpace) (address : Nat) (readOnly : Bool) :
    Option (AddressSpace × Bool) :=
  s.modify? address fun c => ({ c with readOnly }, readOnly)

/-- The byte at an address. -/
def read? (s : AddressSpace) (address : Nat) : Option Expr :=
  (s.resolve? address).bind fun b => b.contents.read? (address - b.object.address)

/-- The space with another byte at an address, if it can be written. -/
def write? (s : AddressSpace) (address : Nat) (e : Expr) : Option AddressSpace :=
  match s.resolve? address with
  | none => none
  | some b =>
    match s.writeAt? address (address - b.object.address) e with
    | some (t, true) => some t
    | _ => none

/-- Binds an object that stands for host memory. -/
def defineFixed (s : AddressSpace) (id : ObjectId) (address size : Nat) :
    Except Abort AddressSpace := do
  return s.bind (.fixed id address size) (← Contents.zero size)

/-- An object that stands for host memory is bound at the address. -/
def bindsFixed (s : AddressSpace) (address : Nat) : Bool :=
  s.bindings[address]?.any (·.object.isFixed)

/-- Unbinds the object at the address, if it stands for host memory. -/
def undefineFixed (s : AddressSpace) (address : Nat) : AddressSpace :=
  if s.bindsFixed address then ⟨s.bindings.erase address⟩ else s

/-- Both spaces bind the same objects in the same order. -/
def sameObjects (s t : AddressSpace) : Bool :=
  s.toList.map (·.object.id) = t.toList.map (·.object.id)

/-- The runs in a list of objects.  An object whose name tells host memory is taken
together with the objects of host memory behind it that have the same size and leave
no gap.  The first list holds the runs so far, the last of them first. -/
def runsFrom (back : List (MemoryObject × Nat)) : List MemoryObject → List (MemoryObject × Nat)
  | [] => back.reverse
  | p :: ps =>
    match back with
    | [] => runsFrom [(p, 1)] ps
    | (o, n) :: rest =>
      if o.name.startsWith MemoryObject.fixedMark && p.isFixed && p.size = o.size &&
          p.address = o.address + n * o.size then
        runsFrom ((o, n + 1) :: rest) ps
      else runsFrom ((p, 1) :: back) ps

/-- The bound objects, with adjacent pages of host memory told as their first one and
their number. -/
def runs (s : AddressSpace) : List (MemoryObject × Nat) := runsFrom [] (s.toList.map (·.object))

/-- Two spaces in one, if they bind the same objects: a byte that differs is the
first space's where the guard holds and the second's elsewhere. -/
def merge? (s t : AddressSpace) (guard : Expr) : Option AddressSpace :=
  if s.sameObjects t then
    some ⟨(s.bindings.toList.zip t.toList).foldl (fun m ((k, mine), theirs) =>
      m.insert k { mine with contents := mine.contents.merge guard theirs.contents }) s.bindings⟩
  else none

end AddressSpace

end PmemPaths.Memory
