import PmemPaths.Config.Settings
import PmemPaths.Execution.ThreadUid
import PmemPaths.Ir.Module

/-!
# Failures and aborts

An operation can go wrong in two ways.  A *failure* is an answer: the caller
learns the reason and everything stays as it was.  An *abort* says that the
caller broke a rule of the operation, and ends the run: no later operation may
look at what was left behind.  Each reason is a constructor, and each wording is
in one place.
-/

namespace PmemPaths

/-- What is wrong with a module. -/
inductive Defect where
  /-- A block has no instructions. -/
  | emptyBlock (block function : String)
  /-- A block does not end with a terminator. -/
  | openBlock (block function : String)
  /-- A block has a terminator that is not its last instruction. -/
  | earlyTerminator (block function : String)
  /-- A branch leaves its function. -/
  | foreignTarget (value function : String)
  /-- A phi names a block outside its function. -/
  | foreignIncoming (value function : String)
  /-- A call passes the wrong number of arguments. -/
  | arity (value : String) (passed : Nat) (callee : String) (taken : Nat)
deriving DecidableEq, Repr

/-- The wording of a defect. -/
def Defect.message : Defect → String
  | emptyBlock b f => "block '" ++ b ++ "' in '" ++ f ++ "' is empty"
  | openBlock b f => "block '" ++ b ++ "' in '" ++ f ++ "' does not end with a terminator"
  | earlyTerminator b f => "block '" ++ b ++ "' in '" ++ f ++ "' has a terminator before its end"
  | foreignTarget v f =>
    "branch %" ++ v ++ " in '" ++ f ++ "' targets a block of another function"
  | foreignIncoming v f =>
    "phi %" ++ v ++ " in '" ++ f ++ "' names a block of another function"
  | arity v n g k =>
    "call %" ++ v ++ " passes " ++ toString n ++ " arguments to '" ++ g ++ "' which takes " ++
      toString k

/-- Why an operation did not do what it was asked for. -/
inductive Failure where
  /-- The settings are refused. -/
  | settings (e : Config.SettingsError)
  /-- The module has a defect. -/
  | defect (d : Defect)
  /-- There is no such function. -/
  | noFunction (what : String)
  /-- The function has no body. -/
  | noBody (name : String)
  /-- The name of a symbolic array is taken. -/
  | arrayNameTaken (name : String)
  /-- An instruction is not part of the function that is being run. -/
  | outsideContext (instruction function : String)
deriving DecidableEq, Repr

/-- The wording of a failure. -/
def Failure.message : Failure → String
  | settings e => "Configuration error: " ++ e.message
  | defect d => "Invalid module: " ++ d.message
  | noFunction what => "Unknown function: " ++ what
  | noBody name => "Unknown function: " ++ name ++ " has no body"
  | arrayNameTaken name => "Array name '" ++ name ++ "' is already used in this state"
  | outsideContext v f =>
    "Analysis error: current instruction " ++ v ++ " is not part of the active context " ++ f

/-- A reason for an abort. -/
inductive Abort where
  /-- Something was looked up that does not exist. -/
  | outOfBounds
  /-- A number left its range: a sum of addresses, a quotient by zero, a count. -/
  | overflow
  /-- More is asked for than memory can hold. -/
  | noRoom
  /-- The heuristic was told to follow what the program cannot do. -/
  | outOfSync (reason : Failure)
  /-- A constraint that never holds was added. -/
  | falseConstraint
  /-- A process tree was split where there is no live leaf. -/
  | notLiveLeaf
  /-- A page size is not a power of two. -/
  | pageSize (n : Nat)
  /-- The current thread does not exist. -/
  | noCurrentThread (u : Execution.ThreadUid)
  /-- A thread was created twice. -/
  | threadExists (u : Execution.ThreadUid)
  /-- The current thread was terminated. -/
  | terminatesCurrent (u : Execution.ThreadUid)
  /-- A thread that does not exist was scheduled. -/
  | schedulesMissing (u : Execution.ThreadUid)
  /-- A waiting thread was scheduled. -/
  | schedulesWaiting (u : Execution.ThreadUid)
  /-- A thread was put on the waiting list zero. -/
  | waitingListZero
  /-- A waiting thread was put on a waiting list. -/
  | alreadyWaiting (u : Execution.ThreadUid)
  /-- A thread was found on a waiting list that is not its own. -/
  | waitsElsewhere (u : Execution.ThreadUid)
  /-- The last frame was popped twice. -/
  | emptyStack
deriving DecidableEq, Repr

/-- The wording of an abort. -/
def Abort.message : Abort → String
  | outOfBounds => "index out of bounds"
  | overflow => "number out of range"
  | noRoom => "no room"
  | outOfSync reason => "NVM heuristic out of sync with the interpreter: " ++ reason.message
  | falseConstraint => "attempt to add invalid (false) constraint"
  | notLiveLeaf => "attach on a node that is not a live leaf"
  | pageSize n => "page size " ++ toString n ++ " is not a power of two"
  | noCurrentThread u => "current thread " ++ u.text ++ " does not exist"
  | threadExists u => "thread " ++ u.text ++ " already exists"
  | terminatesCurrent u => "cannot terminate the current thread " ++ u.text
  | schedulesMissing u => "cannot schedule missing thread " ++ u.text
  | schedulesWaiting u => "cannot schedule waiting thread " ++ u.text
  | waitingListZero => "waiting list ids start at 1"
  | alreadyWaiting u => "thread " ++ u.text ++ " is already waiting"
  | waitsElsewhere u => "thread " ++ u.text ++ " waits elsewhere"
  | emptyStack => "pop_frame on an empty stack"

/-- What was looked up, which has to exist. -/
def required {α : Type} : Option α → Except Abort α
  | some x => .ok x
  | none => .error .outOfBounds

/-- A run ends early by an abort, or by a failure nobody handles. -/
inductive Stop where
  | abort (a : Abort)
  | failure (f : Failure)
deriving DecidableEq, Repr

namespace Stop

/-- The end by a defect of the module. -/
def defect (d : Defect) : Stop := .failure (.defect d)

end Stop

end PmemPaths
