import PmemPaths.Nvm.Checked

/-!
# Dynamic priorities

A thread follows the program with a stack of contexts, one for each frame of its
call stack.  What it learns replaces the top context, and the priority the new
context starts with goes up into the weights of the calls that led to it, as far
as anything changes.
-/

namespace PmemPaths.Nvm

open PmemPaths.Ir (ValueId FunctionId Module Operation)

/-- A context that waits for a call to return. -/
structure Suspended where
  /-- The context. -/
  context : Context
  /-- The call. -/
  call : ValueId

/-- A thread's stack of contexts. -/
structure DynamicHeuristic where
  /-- The active context. -/
  top : Context
  /-- The waiting contexts, the innermost first. -/
  callers : List Suspended
  /-- The current instruction. -/
  current : ValueId

namespace DynamicHeuristic

/-- How many contexts there are. -/
def depth (h : DynamicHeuristic) : Nat := h.callers.length + 1

/-- The priority of the current instruction, or the failure to find it in the
active context. -/
def priority (m : Module) (h : DynamicHeuristic) : Except Stop Nat :=
  match h.top.priorities[h.current]?, m.describe? h.current with
  | some p, _ => .ok p
  | none, some text => .error (.failure (.outsideContext text (m.functionName h.top.function)))
  | none, none => .error (.abort .outOfBounds)

/-- The priority of the current instruction, zero when it is not in the active
context. -/
def priorityOrZero (m : Module) (h : DynamicHeuristic) : Except Abort Nat :=
  match h.priority m with
  | .ok p => .ok p
  | .error (.failure _) => .ok 0
  | .error (.abort a) => .error a

/-- The value an event at an instruction is about: the pointer of a store, load
or flush, and the instruction itself otherwise. -/
def eventValue? (m : Module) (pc : ValueId) : Option ValueId :=
  match m.operation? pc with
  | none => none
  | some (.store _ p) | some (.load p) => some p
  | some (.call _ args) => if m.intrinsicOf? pc = some .flush then args.head? else some pc
  | some _ => some pc

end DynamicHeuristic

namespace Session

variable {a : Analysis}

/-- Installs a context as the child of the innermost waiting context, that one as
the child of the next, and so on.  It stops where the child is installed already,
and behind the first context whose weight at the call and starting priority do
not change. -/
def propagate (child : Context) : List Suspended → SessionM a (List Suspended)
  | [] => return []
  | s :: rest => do
    if (s.context.child? s.call).any (·.id = child.id) then return s :: rest
    let updated ← withChild s.context s.call child
    let settled := updated.weights[s.call]? = s.context.weights[s.call]? ∧
      updated.rootPriority a.module = s.context.rootPriority a.module
    if settled then return { s with context := updated } :: rest
    return { s with context := updated } :: (← propagate updated rest)
termination_by structural callers => callers

/-- Makes another context the active one. -/
def replaceTop (h : DynamicHeuristic) (c : Context) : SessionM a DynamicHeuristic := do
  return { h with top := c, callers := ← propagate c h.callers }

/-- Replaces the active context unless it is the same. -/
def adopt (h : DynamicHeuristic) (c : Context) : SessionM a DynamicHeuristic :=
  if c.id = h.top.id then return h else replaceTop h c

/-- A thread that starts in a function. -/
def startDynamic (f : FunctionId) (first : ValueId) (d : Descriptor) :
    SessionM a DynamicHeuristic := do
  return { top := ← construct f d false, callers := [], current := first }

/-- The thread learns whether an instruction touched persistent memory. -/
def learn (h : DynamicHeuristic) (pc : ValueId) (isNvm : Bool) : SessionM a DynamicHeuristic :=
  match DynamicHeuristic.eventValue? a.module pc with
  | none => return h
  | some v => do adopt h (← updateContext h.top v isNvm)

/-- The thread learns what a call calls. -/
def learnCallee (h : DynamicHeuristic) (pc : ValueId) (callee : FunctionId) :
    SessionM a DynamicHeuristic := do
  adopt h (← resolveCall h.top pc callee)

/-- Leaves the active context.  The last one is never left. -/
def leave (h : DynamicHeuristic) (ret : ValueId) : SessionM a DynamicHeuristic :=
  match h.callers with
  | [] => return h
  | s :: rest => do
    let caller := { h with top := s.context, callers := rest }
    let state ← doReturn h.top.state s.context.state ret s.call
    if state.value = s.context.state.value then return caller
    replaceTop caller (← rebuild s.context state)

/-- The thread goes from one instruction to another. -/
def stepDynamic (h : DynamicHeuristic) (pc next : ValueId) : SessionM a DynamicHeuristic := do
  let moved ← match ← nextContext h.top pc next with
    | .same => pure h
    | .enter c => pure { h with top := c, callers := ⟨h.top, pc⟩ :: h.callers }
    | .leave => leave h pc
  return { moved with current := next }

end Session

end PmemPaths.Nvm
