import PmemPaths.Nvm.Activation
import PmemPaths.Outcome

/-!
# Operations on functions that may not exist

Making contexts and entering calls looks up a function.  Inside a session the
functions come from the module and exist.  A caller may name any function, or go to
an instruction of any function, and one that does not exist is an abort.
-/

namespace PmemPaths.Nvm

open PmemPaths.Ir (ValueId FunctionId)

/-- An operation in a session that may abort. -/
abbrev CheckedM (a : Analysis) := StateT (Session a) (Except Abort)

namespace CheckedM

variable {a : Analysis} {β : Type}

/-- An operation that does not abort. -/
def ofSession (act : SessionM a β) : CheckedM a β := fun s => .ok (act.run s)

/-- An operation that needs the function. -/
def onFunction (f : FunctionId) (act : SessionM a β) : CheckedM a β :=
  if (a.module.function? f).isSome then ofSession act else throw .outOfBounds

/-- An operation that follows a step from one instruction to another.  A call that
goes to an instruction needs the function of that instruction. -/
def onStep (pc next : ValueId) (act : SessionM a β) : CheckedM a β :=
  match a.module.isCall pc, a.module.instruction? next with
  | true, some i => onFunction i.function act
  | _, _ => ofSession act

/-- The context of a function under given facts. -/
def construct (f : FunctionId) (d : Descriptor) (returnHasWeight : Bool) : CheckedM a Context :=
  onFunction f (Session.construct f d returnHasWeight)

/-- What a callee knows on entry.  Only calls look the function up. -/
def doCall (d : Descriptor) (call : ValueId) (f : FunctionId) : CheckedM a Descriptor :=
  if a.module.isCall call then onFunction f (Session.doCall d call f) else pure d

/-- The context after learning what a call calls. -/
def resolveCall (c : Context) (call : ValueId) (f : FunctionId) : CheckedM a Context :=
  onFunction f (Session.resolveCall c call f)

/-- The context a thread is in after going from one instruction to another. -/
def nextContext (c : Context) (pc next : ValueId) : CheckedM a NextContext :=
  onStep pc next (Session.nextContext c pc next)

end CheckedM

/-- The priorities of the instructions of a function that may not exist. -/
def prioritiesOf (m : Ir.Module) (f : FunctionId) (weights : Table) : Except Abort Table :=
  if (m.function? f).isSome then .ok (priorities m f weights) else .error .outOfBounds

end PmemPaths.Nvm
