import PmemPaths.Outcome

/-!
# Listings

A listing is a program written out line by line, and `Listing.build` makes the
module it stands for.  Values, blocks and functions are numbered in the order in
which the lines make them.  A line may refer to anything by number, also to what
comes later or never.

A line that writes into a block that does not exist, or makes a block of a function
that does not exist, ends the building.  An instruction may say that it is part of
another function than its block, even of one that does not exist.  The finished draft
is then checked, function by function in order, and the first defect found is
reported.  In a module that passes, every block of a function ends with its only
terminator, branches and phis name blocks of their own function, and direct calls
pass as many arguments as the function takes.
-/

namespace PmemPaths.Ir

/-- A line of a function body. -/
inductive Line where
  /-- Makes a block and goes on writing there. -/
  | block (name : String)
  /-- Makes a block and goes on writing where it was. -/
  | addBlock (name : String)
  /-- Goes on writing at the end of a block. -/
  | moveTo (b : BlockId)
  /-- The lines that follow come from this place of the source. -/
  | location (l : Location)
  /-- An instruction. -/
  | instruction (name : String) (op : Operation)
deriving DecidableEq, Repr

namespace Line

/-- A store, which has no name of its own. -/
def store (value pointer : ValueId) : Line := .instruction "store" (.store value pointer)

/-- A return. -/
def ret (value : Option ValueId) : Line := .instruction "ret" (.ret value)

/-- A jump. -/
def jump (target : BlockId) : Line := .instruction "br" (.branch none [target])

/-- A jump that depends on a value. -/
def jumpIf (condition : ValueId) (yes no : BlockId) : Line :=
  .instruction "br" (.branch (some condition) [yes, no])

/-- The mark of a place that is never reached. -/
def unreachable : Line := .instruction "unreachable" .unreachable

end Line

/-- An entry of a listing. -/
inductive Item where
  /-- Declares a function. -/
  | declare (name : String) (params : List String) (variadic : Bool)
  /-- Makes a global. -/
  | global (name : String)
  /-- Makes a constant. -/
  | constant (name : String)
  /-- Writes lines into the body of a function, starting nowhere. -/
  | define (f : FunctionId) (lines : List Line)
deriving DecidableEq, Repr

/-- A program written out. -/
structure Listing where
  /-- The name of the module. -/
  name : String
  /-- Its entries. -/
  items : List Item
deriving DecidableEq, Repr

namespace Module

/-! ## Writing -/

/-- The module without contents. -/
def empty (name : String) : Module := ⟨name, #[], #[], #[]⟩

/-- The number the next value gets. -/
def nextValue (m : Module) : ValueId := ⟨m.values.size⟩

/-- One more value. -/
def addValue (m : Module) (kind : ValueKind) (name : String) : Module :=
  { m with values := m.values.push ⟨kind, name⟩ }

/-- One more value for each parameter of a function. -/
def addParams (m : Module) (f : FunctionId) (params : List String) : Module :=
  { m with
    values := m.values ++ (params.zipIdx.map fun (p, i) => Value.mk (.argument f i) p).toArray }

/-- One more function: its address first, then its parameters. -/
def declare (m : Module) (name : String) (params : List String) (variadic : Bool) : Module :=
  let f : FunctionId := ⟨m.functions.size⟩
  let address := m.nextValue
  let m := m.addValue (.function f) name
  let first := m.values.size
  let m := m.addParams f params
  { m with
    functions := m.functions.push
      { name, address, variadic,
        params := (List.range params.length).map fun i => ⟨first + i⟩,
        blocks := [],
        intrinsic := Intrinsic.ofName? name } }

/-- One more block at the end of a function. -/
def addBlock (m : Module) (f : FunctionId) (name : String) : Except Abort (Module × BlockId) :=
  let b : BlockId := ⟨m.blocks.size⟩
  if f.index < m.functions.size then
    .ok ({ m with
      blocks := m.blocks.push ⟨f, name, []⟩,
      functions := m.functions.modify f.index fun g => { g with blocks := g.blocks ++ [b] } }, b)
  else .error .outOfBounds

/-- One more instruction at the end of a block. -/
def addInstruction (m : Module) (i : Instruction) (name : String) : Except Abort Module :=
  if i.block.index < m.blocks.size then
    let v := m.nextValue
    let m := m.addValue (.instruction i) name
    .ok { m with
      blocks := m.blocks.modify i.block.index fun b => { b with insts := b.insts ++ [v] } }
  else .error .outOfBounds

end Module

/-- The place where the next line of a body goes. -/
structure Cursor where
  /-- The function that is written. -/
  function : FunctionId
  /-- The block that is written, if there is one yet. -/
  block : Option BlockId := none
  /-- The source place of the next instruction. -/
  location : Option Location := none

/-- Writes one line.  An instruction that has no block yet starts the block `entry`. -/
def Line.write (m : Module) (c : Cursor) : Line → Except Abort (Module × Cursor)
  | .block name => do
    let (m, b) ← m.addBlock c.function name
    return (m, { c with block := some b })
  | .addBlock name => do
    let (m, _) ← m.addBlock c.function name
    return (m, c)
  | .moveTo b => return (m, { c with block := some b })
  | .location l => return (m, { c with location := some l })
  | .instruction name op => do
    let (m, b) ← match c.block with
      | some b => pure (m, b)
      | none => m.addBlock c.function "entry"
    let m ← m.addInstruction ⟨c.function, b, op, c.location⟩ name
    return (m, { c with block := some b })

/-- Writes the lines of a body. -/
def writeLines (m : Module) (c : Cursor) : List Line → Except Abort Module
  | [] => .ok m
  | l :: ls => do
    let (m, c) ← l.write m c
    writeLines m c ls
termination_by structural ls => ls

/-- Writes one entry. -/
def Item.write (m : Module) : Item → Except Abort Module
  | .declare name params variadic => .ok (m.declare name params variadic)
  | .global name => .ok (m.addValue .global name)
  | .constant name => .ok (m.addValue .constant name)
  | .define f lines => writeLines m { function := f } lines

/-- The module a listing writes, before it is checked. -/
def Listing.draft (l : Listing) : Except Abort Module :=
  l.items.foldlM Item.write (.empty l.name)

namespace Module

/-! ## Checking -/

/-- The block does not exist or belongs to another function than `f`. -/
def isForeign (m : Module) (f : FunctionId) (b : BlockId) : Bool :=
  (m.block? b).all (·.function ≠ f)

/-- Checks the blocks an instruction of `f` names, and the arguments it passes. -/
def checkInstruction (m : Module) (f : FunctionId) (v : ValueId) : Except Stop Unit :=
  match m.operation? v with
  | some (.branch _ targets) =>
    if targets.any (m.isForeign f) then
      .error (.defect (.foreignTarget (m.valueName v) (m.functionName f)))
    else .ok ()
  | some (.phi incoming) =>
    if incoming.any fun (_, b) => m.isForeign f b then
      .error (.defect (.foreignIncoming (m.valueName v) (m.functionName f)))
    else .ok ()
  | some (.call (.direct g) args) =>
    match m.function? g with
    | none => .error (.abort .outOfBounds)
    | some callee =>
      if !callee.variadic && callee.params.length ≠ args.length then
        .error (.defect (.arity (m.valueName v) args.length callee.name callee.params.length))
      else .ok ()
  | _ => .ok ()

/-- The value is a terminator. -/
def isTerminator (m : Module) (v : ValueId) : Bool := (m.operation? v).any (·.isTerminator)

/-- Checks the shape of a block of `f`, then its instructions. -/
def checkBlock (m : Module) (f : FunctionId) (b : BlockId) : Except Stop Unit :=
  match m.block? b with
  | none => .ok ()
  | some block =>
    match block.insts.getLast? with
    | none => .error (.defect (.emptyBlock block.name (m.functionName f)))
    | some last =>
      if !m.isTerminator last then
        .error (.defect (.openBlock block.name (m.functionName f)))
      else if block.insts.dropLast.any m.isTerminator then
        .error (.defect (.earlyTerminator block.name (m.functionName f)))
      else block.insts.forM (m.checkInstruction f)

/-- Checks all functions. -/
def check (m : Module) : Except Stop Unit :=
  m.definedFunctions.forM fun f => (m.blocksOf f).forM (m.checkBlock f)

end Module

/-- The module a listing stands for. -/
def Listing.build (l : Listing) : Except Stop Module :=
  match l.draft with
  | .error a => .error (.abort a)
  | .ok m => do
    m.check
    return m

end PmemPaths.Ir
