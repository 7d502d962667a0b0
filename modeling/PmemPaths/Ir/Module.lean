import PmemPaths.Ir.Id

/-!
# Modules

A module is a whole program: its functions, its blocks and its values.  A value
is an instruction, an argument, a global, the address of a function or a
constant.  An instruction is stored in the value it defines, so the two can
never disagree.  Blocks list their instructions, functions list their blocks,
and everything refers to everything else by number.

A function without blocks is a *declaration*; every other function is *defined*.
-/

namespace PmemPaths.Ir

/-! ## Instructions -/

/-- A line of a source file. -/
structure Location where
  /-- The name of the file. -/
  file : String
  /-- The line in it. -/
  line : Nat
deriving DecidableEq, Hashable, Repr

/-- The calls that mean something to the analysis beyond their arguments. -/
inductive Intrinsic where
  /-- Writes a cache line back. -/
  | flush
  /-- Orders the stores before it. -/
  | fence
  /-- Starts the variadic arguments. -/
  | vaStart
  /-- Copies a list of variadic arguments. -/
  | vaCopy
  /-- Ends the variadic arguments. -/
  | vaEnd
deriving DecidableEq, Repr

/-- The intrinsic a declaration of this name stands for. -/
def Intrinsic.ofName? (name : String) : Option Intrinsic :=
  if name ∈ ["llvm.x86.clflush", "llvm.x86.clflushopt", "llvm.x86.clwb", "clflush",
      "clflushopt", "clwb", "_mm_clflush", "_mm_clflushopt", "_mm_clwb"] then
    some .flush
  else if name ∈ ["llvm.x86.sse.sfence", "llvm.x86.sse2.mfence", "sfence", "mfence",
      "_mm_sfence", "_mm_mfence"] then
    some .fence
  else if name = "llvm.va_start" then some .vaStart
  else if name = "llvm.va_copy" then some .vaCopy
  else if name = "llvm.va_end" then some .vaEnd
  else none

/-- What a call calls. -/
inductive Callee where
  /-- A function named in the call. -/
  | direct (f : FunctionId)
  /-- Whatever function the value points to. -/
  | indirect (pointer : ValueId)
deriving DecidableEq, Repr

/-- What an instruction does. -/
inductive Operation where
  /-- Makes a new stack object and gives its address. -/
  | alloca
  /-- Reads memory. -/
  | load (pointer : ValueId)
  /-- Writes memory. -/
  | store (value pointer : ValueId)
  /-- Computes an address inside an object. -/
  | gep (base : ValueId) (indices : List ValueId)
  /-- Gives the same value at another type. -/
  | cast (source : ValueId)
  /-- Chooses a value by the block control came from. -/
  | phi (incoming : List (ValueId × BlockId))
  /-- Calls a function. -/
  | call (callee : Callee) (args : List ValueId)
  /-- Returns from the function. -/
  | ret (value : Option ValueId)
  /-- Jumps to one of the targets. -/
  | branch (condition : Option ValueId) (targets : List BlockId)
  /-- Is never reached. -/
  | unreachable
  /-- Computes something from its operands, no matter what. -/
  | other (operands : List ValueId)
deriving DecidableEq, Repr

namespace Operation

/-- A terminator ends a block. -/
def isTerminator : Operation → Bool
  | ret _ | branch _ _ | unreachable => true
  | _ => false

/-- A phi reads the block control came from. -/
def isPhi : Operation → Bool
  | phi _ => true
  | _ => false

/-- A call, direct or not. -/
def isCall : Operation → Bool
  | call _ _ => true
  | _ => false

/-- A return from the function. -/
def isReturn : Operation → Bool
  | ret _ => true
  | _ => false

/-- The name of the operation in reports. -/
def opcode : Operation → String
  | alloca => "alloca"
  | load _ => "load"
  | store _ _ => "store"
  | gep _ _ => "getelementptr"
  | cast _ => "cast"
  | phi _ => "phi"
  | call _ _ => "call"
  | ret _ => "ret"
  | branch _ _ => "br"
  | unreachable => "unreachable"
  | other _ => "op"

/-- The values an operation reads, in source order.  An indirect call reads its
function pointer first. -/
def operands : Operation → List ValueId
  | alloca | unreachable => []
  | load p => [p]
  | store v p => [v, p]
  | gep base indices => base :: indices
  | cast s => [s]
  | phi incoming => incoming.map (·.1)
  | call (.indirect p) args => p :: args
  | call (.direct _) args => args
  | ret v => v.toList
  | branch c _ => c.toList
  | other vs => vs

end Operation

/-- An instruction of a block. -/
structure Instruction where
  /-- The function it was written for. -/
  function : FunctionId
  /-- The block it is in. -/
  block : BlockId
  /-- What it does. -/
  op : Operation
  /-- The source line it came from, when known. -/
  location : Option Location
deriving DecidableEq, Repr

/-! ## Values, blocks and functions -/

/-- What a value is. -/
inductive ValueKind where
  | instruction (i : Instruction)
  | argument (f : FunctionId) (position : Nat)
  | global
  | function (f : FunctionId)
  | constant
deriving DecidableEq, Repr

/-- A value and its name. -/
structure Value where
  /-- What it is. -/
  kind : ValueKind
  /-- Its name, not necessarily its own. -/
  name : String
deriving DecidableEq, Repr

/-- A straight run of instructions. -/
structure Block where
  /-- The function that lists it. -/
  function : FunctionId
  /-- Its name. -/
  name : String
  /-- Its instructions, in order. -/
  insts : List ValueId
deriving DecidableEq, Repr

/-- A function. -/
structure Function where
  /-- Its name. -/
  name : String
  /-- Its address, as a value. -/
  address : ValueId
  /-- Its parameters, as values. -/
  params : List ValueId
  /-- Its blocks, the entry block first. -/
  blocks : List BlockId
  /-- It takes more arguments than it has parameters. -/
  variadic : Bool
  /-- What it means to the analysis. -/
  intrinsic : Option Intrinsic
deriving DecidableEq, Repr

/-- A declaration has no body. -/
def Function.isDeclaration (f : Function) : Bool := f.blocks.isEmpty

/-- A program. -/
structure Module where
  /-- Its name. -/
  name : String
  /-- Its values, by number. -/
  values : Array Value
  /-- Its blocks, by number. -/
  blocks : Array Block
  /-- Its functions, by number. -/
  functions : Array Function
deriving DecidableEq, Repr

namespace Module

variable (m : Module)

/-! ## Looking things up -/

/-- How many values there are. -/
def valueCount : Nat := m.values.size

/-- The numbers of all values, in order. -/
def valueIds : List ValueId := (List.range m.valueCount).map Id.mk

/-- The numbers of all functions, in order. -/
def functionIds : List FunctionId := (List.range m.functions.size).map Id.mk

/-- The value of that number. -/
def value? (v : ValueId) : Option Value := m.values[v.index]?

/-- The block of that number. -/
def block? (b : BlockId) : Option Block := m.blocks[b.index]?

/-- The function of that number. -/
def function? (f : FunctionId) : Option Function := m.functions[f.index]?

/-- The name of a value, with a stand-in for values that do not exist. -/
def valueName (v : ValueId) : String := (m.value? v).elim "<unknown>" (·.name)

/-- The name of a function, empty for functions that do not exist. -/
def functionName (f : FunctionId) : String := (m.function? f).elim "" (·.name)

/-- The function exists and has a body. -/
def isDefined (f : FunctionId) : Bool := (m.function? f).any (!·.isDeclaration)

/-- The functions with a body, in order. -/
def definedFunctions : List FunctionId := m.functionIds.filter m.isDefined

/-- The function of that name.  Of several, the one declared last. -/
def functionNamed? (name : String) : Option FunctionId :=
  m.functionIds.reverse.find? fun f => (m.function? f).any (·.name = name)

/-- The instruction a value is. -/
def instruction? (v : ValueId) : Option Instruction :=
  match m.value? v with
  | some ⟨.instruction i, _⟩ => some i
  | _ => none

/-- What the instruction does. -/
def operation? (v : ValueId) : Option Operation := (m.instruction? v).map (·.op)

/-- How many values are instructions. -/
def instructionCount : Nat := (m.valueIds.filter fun v => (m.instruction? v).isSome).length

/-- The value is a global. -/
def isGlobal (v : ValueId) : Bool := (m.value? v).any (·.kind = .global)

/-- The globals, in order. -/
def globals : List ValueId := m.valueIds.filter m.isGlobal

/-- The function whose address the value is. -/
def functionOf? (v : ValueId) : Option FunctionId :=
  match m.value? v with
  | some ⟨.function f, _⟩ => some f
  | _ => none

/-- The blocks of a function, empty when it does not exist. -/
def blocksOf (f : FunctionId) : List BlockId := (m.function? f).elim [] (·.blocks)

/-- The instructions a block lists. -/
def instsOf (b : BlockId) : List ValueId := (m.block? b).elim [] (·.insts)

/-- The instructions of a function, block by block. -/
def instructionsOf (f : FunctionId) : List ValueId :=
  ((m.blocksOf f).flatMap m.instsOf).filter fun v => (m.instruction? v).isSome

/-- The entry block of a function. -/
def entryBlock? (f : FunctionId) : Option BlockId := (m.blocksOf f).head?

/-- The instruction a function starts with. -/
def firstInstruction? (f : FunctionId) : Option ValueId :=
  (m.entryBlock? f).bind fun b => (m.instsOf b).head?

/-- The first instruction of the entry block that is not a phi. -/
def entryFirstNonPhi? (f : FunctionId) : Option ValueId :=
  (m.entryBlock? f).bind fun b =>
    (m.instsOf b).find? fun v => (m.operation? v).any (!·.isPhi)

/-! ## Control flow and calls -/

/-- What follows the first occurrence of a value in a list. -/
def next? (v : ValueId) : List ValueId → Option ValueId
  | [] => none
  | w :: ws => if w = v then ws.head? else next? v ws
termination_by structural ws => ws

/-- The instructions control can reach next: the following one of the block, or
the first one of each branch target. -/
def successors (v : ValueId) : List ValueId :=
  match m.instruction? v with
  | none => []
  | some i =>
    match i.op with
    | .branch _ targets => targets.filterMap fun b => (m.instsOf b).head?
    | .ret _ | .unreachable => []
    | _ => (next? v (m.instsOf i.block)).toList

/-- A value that stands for an object in memory: a global, a function, or the
result of an `alloca` or a call. -/
def isAllocationSite (v : ValueId) : Bool :=
  match m.value? v with
  | some ⟨.global, _⟩ | some ⟨.function _, _⟩ => true
  | some ⟨.instruction i, _⟩ => i.op = .alloca || i.op.isCall
  | _ => false

/-- The value is a call. -/
def isCall (v : ValueId) : Bool := (m.operation? v).any (·.isCall)

/-- The value is a return. -/
def isReturn (v : ValueId) : Bool := (m.operation? v).any (·.isReturn)

/-- The function a direct call names. -/
def calledFunction? (v : ValueId) : Option FunctionId :=
  match m.operation? v with
  | some (.call (.direct f) _) => some f
  | _ => none

/-- The intrinsic a direct call names. -/
def intrinsicOf? (v : ValueId) : Option Intrinsic :=
  (m.calledFunction? v).bind fun f => (m.function? f).bind (·.intrinsic)

/-- The arguments of a call, empty for anything else. -/
def callArgs (v : ValueId) : List ValueId :=
  match m.operation? v with
  | some (.call _ args) => args
  | _ => []

/-- One edge for every direct call of a defined function in a defined function. -/
def callGraphEdges : List (FunctionId × FunctionId) :=
  m.definedFunctions.flatMap fun f =>
    (m.instructionsOf f).filterMap fun v =>
      ((m.calledFunction? v).filter m.isDefined).map fun g => (f, g)

/-! ## Text -/

/-- The text of a value in reports: an instruction is shown with its function,
operation and source line, anything else by name.  There is none for an instruction
of a function that does not exist. -/
def describe? (v : ValueId) : Option String :=
  match m.instruction? v with
  | none => some ("@" ++ m.valueName v)
  | some i =>
    (m.function? i.function).map fun f =>
      f.name ++ ":%" ++ m.valueName v ++ " (" ++ i.op.opcode ++ ")" ++
        i.location.elim "" fun l => " at " ++ l.file ++ ":" ++ toString l.line

end Module

end PmemPaths.Ir
