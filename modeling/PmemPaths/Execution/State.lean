import PmemPaths.Execution.ProcessTree
import PmemPaths.Memory.AddressSpace
import PmemPaths.Nvm.Heuristic
import PmemPaths.RootCause.Ledger
import PmemPaths.Symbolic.PathCondition

/-!
# Execution states

One path through a program: its threads and their stacks, its memory, what holds
on it, and its symbolic inputs.  Everything a path owns is in its state.  What
all paths share, the program and what is known about its pointers and contexts,
is in the session and in the factory of heuristics.
-/

namespace PmemPaths.Execution

open PmemPaths.Ir (ValueId FunctionId Module)
open PmemPaths.Memory (AddressSpace MemoryObject ObjectId Contents)
open PmemPaths.Nvm (Analysis CheckedM Factory Heuristic)
open PmemPaths.Symbolic (Expr Node PathCondition SymbolicArray)

/-! ## Threads -/

/-- A frame of a call stack. -/
structure Frame where
  /-- The call that opened it. -/
  caller : Option ValueId
  /-- Its function. -/
  function : FunctionId
  /-- The values of its parameters and instructions, as far as they are set. -/
  locals : Array (Option Expr)
  /-- The objects it owns. -/
  allocas : List MemoryObject := []

namespace Frame

/-- A new frame of a function: one local for each parameter and instruction. -/
def ofFunction (m : Module) (caller : Option ValueId) (f : FunctionId) : Frame where
  caller := caller
  function := f
  locals := .replicate (((m.function? f).elim 0 (·.params.length)) + (m.instructionsOf f).length)
    none

/-- Two frames have the same place and number of locals. -/
def sameShape (x y : Frame) : Bool :=
  x.caller = y.caller && x.function = y.function && x.locals.size = y.locals.size

end Frame

/-- A thread of the program. -/
structure Thread where
  /-- The current instruction. -/
  pc : ValueId
  /-- The instruction before it. -/
  prevPc : ValueId
  /-- The call stack, innermost frame first. -/
  stack : List Frame
  /-- Which of the incoming values of a phi applies. -/
  incoming : Nat := 0
  /-- Its heuristic. -/
  heuristic : Heuristic
  /-- It does not wait. -/
  enabled : Bool := true
  /-- The list it waits on. -/
  waitsOn : Option Nat := none

namespace Thread

/-- A thread at the start of a function. -/
def start (m : Module) (f : FunctionId) (entry : ValueId) (h : Heuristic) : Thread where
  pc := entry
  prevPc := entry
  stack := [.ofFunction m none f]
  heuristic := h

/-- The calls and functions of the stack, outermost first. -/
def fingerprint (t : Thread) : RootCause.Stack :=
  t.stack.reverse.map fun f => (f.caller, f.function)

/-- Two threads are at the same instruction with stacks of the same shape. -/
def samePosition (t u : Thread) : Bool :=
  t.pc = u.pc && t.stack.length = u.stack.length &&
    (t.stack.zip u.stack).all fun (x, y) => x.sameShape y

end Thread

/-! ## States -/

/-- One path through a program. -/
structure State where
  /-- Its number. -/
  id : Nat
  /-- Its threads. -/
  threads : Std.ExtTreeMap ThreadUid Thread
  /-- The threads on each waiting list. -/
  waiting : Std.ExtTreeMap Nat (Std.ExtTreeSet ThreadUid) := ∅
  /-- The next waiting list. -/
  nextWaitingList : Nat := 1
  /-- The current thread. -/
  current : ThreadUid := .main
  /-- The time on the path. -/
  time : Nat := 0
  /-- The cost of its queries, in milliseconds. -/
  queryCost : Nat := 0
  /-- Its memory. -/
  memory : AddressSpace := {}
  /-- What holds on it. -/
  condition : PathCondition := ∅
  /-- How often it branched. -/
  depth : Nat := 0
  /-- The steps since a line was covered for the first time. -/
  sinceCovered : Nat := 0
  /-- It has covered a line for the first time. -/
  coveredNew : Bool := false
  /-- It must not branch. -/
  forkDisabled : Bool := false
  /-- The lines it has covered, by file. -/
  covered : Std.ExtTreeMap String (Std.ExtTreeSet Nat) := ∅
  /-- Its leaf in the process tree. -/
  node : Option Nat := none
  /-- Its symbolic inputs, in the order they were made. -/
  symbolics : List (MemoryObject × SymbolicArray) := []
  /-- The objects that are persistent. -/
  persistent : Std.ExtTreeSet ObjectId := ∅
  /-- The names of arrays that are taken. -/
  arrayNames : Std.ExtTreeSet String := ∅
  /-- How many steps it has made. -/
  steps : Nat := 0

namespace State

/-- The thread that starts in a function, or the failure to start there. -/
def startThread {a : Analysis} (p : Factory) (f : FunctionId) :
    Nvm.SessionM a (Except Failure Thread) := do
  match ← p.create f with
  | .error e => return .error e
  | .ok h =>
    match a.module.firstInstruction? f with
    | none => return .error (.noBody (a.module.functionName f))
    | some entry => return .ok (.start a.module f entry h)

/-- The first state of a program. -/
def initial {a : Analysis} (p : Factory) (id : Nat) (main : FunctionId) :
    Nvm.SessionM a (Except Failure State) := do
  return (← startThread p main).map fun t =>
    { id, threads := (∅ : Std.ExtTreeMap ThreadUid Thread).insert .main t }

/-- The current thread. -/
def thread (s : State) : Except Abort Thread :=
  match s.threads[s.current]? with
  | some t => .ok t
  | none => .error (.noCurrentThread s.current)

/-- The state with another current thread in its place. -/
def setThread (s : State) (t : Thread) : State :=
  { s with threads := s.threads.insert s.current t }

/-! ## Branching -/

/-- The greatest depth. -/
def maxDepth : Nat := 0xffffffff

/-- The path goes on in two states.  Both are one branching deeper.  The new one
is not in the process tree yet and has covered nothing for the first time. -/
def branch (s : State) (id : Nat) : Except Abort (State × State) := do
  if maxDepth ≤ s.depth then throw .overflow
  let s := { s with depth := s.depth + 1 }
  return (s, { s with id, node := none, coveredNew := false })

/-- Branches, and splits the leaf of the state if it has one. -/
def forkInto (s : State) (id : Nat) (tree : ProcessTree) :
    Except Abort (State × State × ProcessTree) := do
  let (s, t) ← s.branch id
  match s.node with
  | none => return (s, t, tree)
  | some n =>
    let (tree, l, r) ← tree.attach n s.id t.id
    return ({ s with node := some l }, { t with node := some r }, tree)

/-- Takes the state out of the process tree. -/
def leaveTree (s : State) (tree : ProcessTree) : State × ProcessTree :=
  ({ s with node := none }, s.node.elim tree tree.remove)

/-! ## Inputs, constraints and persistent objects -/

/-- A symbolic array of that name is in use. -/
def usesName (s : State) (name : String) : Bool := s.arrayNames.contains name

/-- Takes a name for an array.  The answer tells whether it was taken already. -/
def takeName (s : State) (name : String) : Bool × State :=
  let (taken, arrayNames) := s.arrayNames.containsThenInsert name
  (taken, { s with arrayNames })

/-- Adds a symbolic input, unless the name of its array is taken.  Taking it once more
changes nothing, so a failure leaves the state as it was. -/
def addSymbolic (s : State) (o : MemoryObject) (array : SymbolicArray) : Except Failure State :=
  match s.takeName array.name with
  | (true, _) => .error (.arrayNameTaken array.name)
  | (false, s) => .ok { s with symbolics := s.symbolics ++ [(o, array)] }

/-- A name with a number. -/
def numbered (base : String) (n : Nat) : String := base ++ "_" ++ toString n

/-- The name with the first number from `n` on that makes it a new one, trying so
many numbers. -/
def numberedName (s : State) (base : String) : Nat → Nat → String
  | 0, _ => base
  | k + 1, n =>
    if s.usesName (numbered base n) then numberedName s base k (n + 1) else numbered base n
termination_by structural k => k

/-- A name for an array that is not in use: the name itself or the name with the
least number that makes it new.  One of the first numbers does, since there are
only so many names. -/
def uniqueName (s : State) (base : String) : String :=
  if s.usesName base then s.numberedName base (s.arrayNames.size + 1) 1 else base

/-- Adds a constraint to what holds. -/
def addConstraint (s : State) (t : Node) : Except Abort State := do
  return { s with condition := ← s.condition.add t }

/-- Remembers that an object is persistent. -/
def markPersistent (s : State) (o : ObjectId) : State :=
  { s with persistent := s.persistent.insert o }

/-! ## Frames -/

/-- Enters a function. -/
def pushFrame (m : Module) (s : State) (caller : ValueId) (f : FunctionId) :
    Except Abort State := do
  if (m.function? f).isNone then throw .outOfBounds
  let t ← s.thread
  return s.setThread { t with stack := .ofFunction m (some caller) f :: t.stack }

/-- Leaves the innermost frame, whose objects are unbound. -/
def popFrame (s : State) : Except Abort State := do
  let t ← s.thread
  match t.stack with
  | [] => throw .emptyStack
  | f :: rest =>
    return { s.setThread { t with stack := rest } with
      memory := f.allocas.foldl AddressSpace.unbind s.memory }

/-- Binds an object that the innermost frame owns. -/
def bindLocal (s : State) (o : MemoryObject) (c : Contents) : Except Abort State := do
  let t ← s.thread
  let stack := match t.stack with
    | [] => []
    | f :: rest => { f with allocas := f.allocas ++ [o] } :: rest
  return { s.setThread { t with stack } with memory := s.memory.bind o c }

/-- Sets or clears a local of a frame, frames counted from the outermost. -/
def setLocal (s : State) (frame cell : Nat) (e : Option Expr) : Except Abort State := do
  let t ← s.thread
  match t.stack.reverse[frame]? with
  | none => throw .outOfBounds
  | some f =>
    if f.locals.size ≤ cell then throw .outOfBounds
    let f := { f with locals := f.locals.setIfInBounds cell e }
    return s.setThread { t with stack := (t.stack.reverse.set frame f).reverse }

/-! ## Running -/

/-- Remembers that a line was reached, and whether for the first time. -/
def cover (s : State) (l : Option Ir.Location) : State :=
  match l with
  | none => { s with sinceCovered := s.sinceCovered + 1 }
  | some l =>
    let lines := s.covered.getD l.file ∅
    if lines.contains l.line then { s with sinceCovered := s.sinceCovered + 1 }
    else
      { s with
        covered := s.covered.insert l.file (lines.insert l.line)
        coveredNew := true
        sinceCovered := 0 }

variable {a : Analysis}

/-- Runs an operation on the heuristic of the current thread. -/
def withHeuristic (s : State) (act : Heuristic → CheckedM a Heuristic) : CheckedM a State := do
  let t ← liftM s.thread
  let h ← act t.heuristic
  return s.setThread { t with heuristic := h }

/-- The current thread makes a step. -/
def step (s : State) (next : ValueId) : CheckedM a State := do
  let t ← liftM s.thread
  let h ← t.heuristic.step t.pc next
  let s := s.setThread { t with heuristic := h, prevPc := t.pc, pc := next }
  let s := s.cover ((a.module.instruction? t.pc).bind (·.location))
  return { s with steps := s.steps + 1 }

/-- The current thread learns whether an instruction touched persistent memory. -/
def learn (s : State) (pc : ValueId) (isNvm : Bool) : CheckedM a State :=
  s.withHeuristic fun h => CheckedM.ofSession (h.learn pc isNvm)

/-- The current thread learns what a call calls. -/
def learnCallee (s : State) (pc : ValueId) (f : FunctionId) : CheckedM a State :=
  s.withHeuristic fun h => h.learnCallee pc f

/-! ## Reports -/

/-- The text of a frame: its function, and the place in it that is reached. -/
def frameText (m : Module) (i : Nat) (f : FunctionId) (reached : Option ValueId) : String :=
  "#" ++ Text.padRight 4 (toString i) ++ " in " ++ m.functionName f ++
    (((reached.bind m.instruction?).bind (·.location)).elim "" fun l =>
      " at " ++ l.file ++ ":" ++ toString l.line) ++ "\n"

/-- The text of some frames, numbered from `i` on. -/
def stackTextFrom (m : Module) : Nat → Option ValueId → List Frame → String
  | _, _, [] => ""
  | i, reached, f :: rest =>
    frameText m i f.function reached ++ stackTextFrom m (i + 1) f.caller rest
termination_by structural _ _ frames => frames

/-- The call stack of the current thread, innermost frame first. -/
def stackText (m : Module) (s : State) : Except Abort String := do
  let t ← s.thread
  return stackTextFrom m 0 (some t.prevPc) t.stack

/-- A bug as it shows in a state. -/
def sighting (m : Module) (s : State) (site pc : ValueId) (reason : RootCause.Reason) :
    Except Abort RootCause.Location := do
  let t ← s.thread
  return {
    place := ⟨site, pc, t.fingerprint, reason⟩
    instText := ← required (m.describe? pc)
    siteText := ← required (m.describe? site)
    stackText := ← s.stackText m }

end State

end PmemPaths.Execution
