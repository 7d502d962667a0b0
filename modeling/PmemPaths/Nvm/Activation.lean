import PmemPaths.Nvm.Session

/-!
# Making contexts

How the contexts of a session are made and replaced.

`construct` gives the context of a function under given facts, the one made
before if there is one.  It weighs the instructions by themselves, then adds to
each direct call of a defined function what the callee's context starts with.
A callee whose context is under construction is a recursive one: it adds nothing
and gets no child.  Each nested construction marks another pair of a function
and facts, and from one call to the next only the volatile parameters change, so
the nesting is bounded by the number of sets of parameters.

A context made for returns with weight stays in use when the same pair is asked
for without, and the other way round: the first request decides.
-/

namespace PmemPaths.Nvm

open PmemPaths.Ir (ValueId FunctionId Module Callee)

/-- Where a thread goes on after an instruction, seen from its context. -/
inductive NextContext where
  /-- In the same context. -/
  | same
  /-- In a context entered by a call. -/
  | enter (c : Context)
  /-- In the caller's context. -/
  | leave

namespace Session

variable {a : Analysis}

/-! ## Construction -/

/-- A context without children whose instructions weigh what they do themselves. -/
def bareContext (f : FunctionId) (state : Descriptor) (returnHasWeight : Bool) :
    SessionM a Context := do
  let weights ← (a.module.instructionsOf f).mapM fun v => do
    return (v, ← coreWeight state.value returnHasWeight v)
  let core := weights.filter (0 < ·.2)
  return {
    id := ← fresh
    function := f
    state
    returnHasWeight
    coreWeights := .ofList core
    weights := .ofList weights
    priorities := ∅
    children := []
    hasCoreWeight := !core.isEmpty }

/-- The context with a child at a call, whose weight grows by what the child
starts with. -/
def addChild (c : Context) (call : ValueId) (child : Context) : Context :=
  { c with
    weights := c.weights.insert call
      (addCapped (c.weights.getD call 0) (child.rootPriority a.module))
    children := Context.setChild call child c.children
    hasCoreWeight := c.hasCoreWeight || child.hasCoreWeight }

/-- Adds a child for each direct call of a defined function, as `make` makes it. -/
def addChildren (make : FunctionId → Descriptor → Bool → SessionM a Context) :
    Context → List ValueId → SessionM a Context
  | c, [] => return c
  | c, call :: rest => do
    let c ← match (a.module.calledFunction? call).filter a.module.isDefined with
      | none => pure c
      | some callee => do
        let state ← intern (← doCall c.state call callee)
        if ← isInProgress ⟨callee, state.value⟩ then pure c
        else
          let returnHasWeight ← mayPoint c.state.value call
          let child ← make callee state returnHasWeight
          pure (addChild (a := a) c call child)
    addChildren make c rest
termination_by structural _ calls => calls

/-- The context with the priorities that follow from its weights. -/
def prioritize (c : Context) : Context :=
  { c with priorities := priorities a.module c.function c.weights }

/-- The context of a function under given facts, with at most so many nested
constructions. -/
def constructWithin : Nat → FunctionId → Descriptor → Bool → SessionM a Context
  | 0, f, state, returnHasWeight => bareContext f state returnHasWeight
  | n + 1, f, state, returnHasWeight => do
    let state ← intern state
    let key : ContextKey := ⟨f, state.value⟩
    match ← lookup key with
    | some c => return c
    | none =>
      let started ← begin key
      let bare ← bareContext f state returnHasWeight
      let c ← addChildren (constructWithin n) bare (a.module.instructionsOf f)
      if started then finish key
      insert (prioritize (a := a) c)
termination_by structural n => n

/-- A bound on the nesting of constructions: one for the function asked for, and
one for each function and each set of its parameters. -/
def nestingBound (m : Module) : Nat :=
  (m.functions.toList.map fun f => Nat.pow 2 f.params.length).foldl (· + ·) 2

/-- The context of a function under given facts. -/
def construct (f : FunctionId) (state : Descriptor) (returnHasWeight : Bool) :
    SessionM a Context :=
  constructWithin (nestingBound a.module) f state returnHasWeight

/-! ## Replacement -/

/-- Another context with this child at a call. -/
def withChild (c : Context) (call : ValueId) (child : Context) : SessionM a Context := do
  let id ← fresh
  return prioritize (a := a)
    { c with
      id
      weights := c.weights.insert call (addCapped (c.coreWeight call) (child.rootPriority a.module))
      children := Context.setChild call child c.children
      hasCoreWeight := c.hasCoreWeight || child.hasCoreWeight }

/-- The context after learning that a call calls a function.  Nothing changes
when that is known already or the function has no body. -/
def resolveCall (c : Context) (call : ValueId) (callee : FunctionId) : SessionM a Context := do
  if (c.child? call).any (·.function = callee) || !a.module.isDefined callee then return c
  let state ← doCall c.state call callee
  let returnHasWeight ← mayPoint c.state.value call
  let child ← construct callee state returnHasWeight
  withChild c call child

/-- The indirect calls that have a child, each with the function of the child, in
order. -/
def resolvedCalls (m : Module) (c : Context) : List (ValueId × FunctionId) :=
  let indirect := c.children.filter fun (v, _) =>
    match m.operation? v with
    | some (.call (.indirect _) _) => true
    | _ => false
  (indirect.map fun (v, child) => (v, child.function)).mergeSort
    fun (v, _) (w, _) => v.index ≤ w.index

/-- The context of the same function under other facts.  What indirect calls
were found to call is kept. -/
def rebuild (c : Context) (state : Descriptor) : SessionM a Context := do
  let next ← construct c.function state c.returnHasWeight
  (resolvedCalls a.module c).foldlM (fun next (call, callee) => resolveCall next call callee) next

/-- The context after learning whether a value is persistent memory. -/
def updateContext (c : Context) (v : ValueId) (isNvm : Bool) : SessionM a Context := do
  let state ← update c.state v isNvm
  if state.value = c.state.value then return c
  rebuild c state

/-- The context a thread is in after going from one instruction to another.  A
call stays in its context when it goes on behind the call; it enters the child of
the call when that is of the right function, and another context otherwise. -/
def nextContext (c : Context) (pc next : ValueId) : SessionM a NextContext := do
  match a.module.operation? pc with
  | some (.call _ _) =>
    match a.module.instruction? next with
    | none => return .same
    | some i =>
      if i.function = c.function && a.module.firstInstruction? i.function ≠ some next then
        return .same
      match (c.child? pc).filter (·.function = i.function) with
      | some child => return .enter child
      | none =>
        let state ← doCall c.state pc i.function
        let returnHasWeight ← mayPoint c.state.value pc
        return .enter (← construct i.function state returnHasWeight)
  | some (.ret _) => return .leave
  | _ => return .same

end Session

end PmemPaths.Nvm
