import PmemPaths.Nvm.Context
import Std.Data.HashMap
import Std.Data.HashSet

/-!
# Sessions

A session is what all activations of one program share: the sites looked up so
far, the facts in use, and the contexts made so far.  Equal facts are *interned*,
so that they have one identity, and a function under equal facts has one context
for ever.

The memo of sites only holds answers the analysis gives, which its type says, so
a question has the same answer whether it was asked before or not.  The contexts
under construction are marked, which is how recursion is noticed.
-/

namespace PmemPaths.Nvm

open PmemPaths.Ir (ValueId FunctionId Module)
open PmemPaths.PointsTo (Objects)

/-! ## The memo of sites -/

/-- Where nothing was answered, all answers are right. -/
theorem SiteMemo.sound_empty (a : Analysis) (v : ValueId) (s : Objects)
    (h : (∅ : Std.ExtTreeMap ValueId Objects)[v]? = some s) : s = a.sites v := by
  simp at h

/-- The allocation sites of the values asked for so far. -/
structure SiteMemo (a : Analysis) where
  /-- The answers. -/
  answers : Std.ExtTreeMap ValueId Objects := ∅
  /-- They are the right ones. -/
  sound : ∀ v s, answers[v]? = some s → s = a.sites v := by
    exact SiteMemo.sound_empty _

namespace SiteMemo

variable {a : Analysis}

/-- The memo with one more answer. -/
def add (c : SiteMemo a) (v : ValueId) : SiteMemo a where
  answers := c.answers.insert v (a.sites v)
  sound w s h := by
    rw [Std.ExtTreeMap.getElem?_insert] at h
    split at h
    · next hvw =>
      obtain rfl := Std.LawfulEqOrd.eq_of_compare hvw
      exact (Option.some.inj h).symm
    · exact c.sound w s h

/-- The sites of a value, and the memo afterwards. -/
def ask (c : SiteMemo a) (v : ValueId) : Objects × SiteMemo a :=
  match c.answers[v]? with
  | some s => (s, c)
  | none => (a.sites v, c.add v)

/-- The answer does not depend on what was asked before. -/
@[simp] theorem ask_fst (c : SiteMemo a) (v : ValueId) : (c.ask v).1 = a.sites v := by
  rw [ask]
  split
  · next h => exact c.sound v _ h
  · rfl

end SiteMemo

/-! ## Sessions -/

/-- A function under given facts. -/
structure ContextKey where
  /-- The function. -/
  function : FunctionId
  /-- The facts. -/
  facts : Facts
deriving DecidableEq, Hashable

/-- What all activations of a program share. -/
structure Session (a : Analysis) where
  /-- The sites asked for so far. -/
  memo : SiteMemo a := {}
  /-- The next identity. -/
  nextId : Nat := 0
  /-- The facts in use, each with its identity. -/
  interned : Std.HashMap Facts Descriptor := ∅
  /-- The contexts made so far. -/
  contexts : Std.HashMap ContextKey Context := ∅
  /-- The contexts under construction. -/
  inProgress : Std.HashSet ContextKey := ∅
  /-- How often a context was found. -/
  hits : Nat := 0
  /-- How often a context was looked for in vain. -/
  misses : Nat := 0

/-- An operation in a session. -/
abbrev SessionM (a : Analysis) := StateM (Session a)

namespace Session

variable {a : Analysis}

/-- The allocation sites a value may point to. -/
def sites (v : ValueId) : SessionM a Objects :=
  modifyGet fun s =>
    let (answer, memo) := s.memo.ask v
    (answer, { s with memo })

/-- An identity nothing has yet. -/
def fresh : SessionM a Nat :=
  modifyGet fun s => (s.nextId, { s with nextId := s.nextId + 1 })

/-- The descriptor itself when the facts are its own, a new one otherwise. -/
def share (d : Descriptor) (facts : Facts) : SessionM a Descriptor := do
  if facts = d.value then return d
  return ⟨← fresh, facts⟩

/-- The descriptor that stands for all with these facts. -/
def intern (d : Descriptor) : SessionM a Descriptor :=
  modifyGet fun s =>
    match s.interned[d.value]? with
    | some known => (known, s)
    | none => (d, { s with interned := s.interned.insert d.value d })

/-- The context made for a function under given facts. -/
def lookup (key : ContextKey) : SessionM a (Option Context) :=
  modifyGet fun s =>
    match s.contexts[key]? with
    | some c => (some c, { s with hits := s.hits + 1 })
    | none => (none, { s with misses := s.misses + 1 })

/-- Keeps a context, unless there is one for its function and facts.  Gives the
one that is kept. -/
def insert (c : Context) : SessionM a Context :=
  modifyGet fun s =>
    let key : ContextKey := ⟨c.function, c.state.value⟩
    match s.contexts[key]? with
    | some known => (known, s)
    | none => (c, { s with contexts := s.contexts.insert key c })

/-- Marks a context as under construction.  False when it was already. -/
def begin (key : ContextKey) : SessionM a Bool :=
  modifyGet fun s => (!s.inProgress.contains key, { s with inProgress := s.inProgress.insert key })

/-- Takes the mark away. -/
def finish (key : ContextKey) : SessionM a Unit :=
  modify fun s => { s with inProgress := s.inProgress.erase key }

/-- The context is under construction. -/
def isInProgress (key : ContextKey) : SessionM a Bool := do
  return (← get).inProgress.contains key

/-! ## Questions and steps on facts -/

/-- The value may point to persistent memory.  The sites are looked up only when
the facts do not rule the value out. -/
def mayPoint (d : Facts) (v : ValueId) : SessionM a Bool := do
  if d.excludes v then return false
  return d.meets (← sites v)

/-- The first of some values, when there is one, may point to persistent memory. -/
def mayPointFirst (d : Facts) (vs : List ValueId) : SessionM a Bool :=
  match vs with
  | [] => return false
  | v :: _ => mayPoint d v

/-- The instruction is a store or flush through a pointer that may point to
persistent memory. -/
def mayModify (d : Facts) (v : ValueId) : SessionM a Bool :=
  match a.module.operation? v with
  | some (.store _ p) => mayPoint d p
  | some (.call _ args) =>
    if a.module.intrinsicOf? v = some .flush then mayPointFirst d args else return false
  | _ => return false

/-- What an instruction weighs by itself: one for a store, flush or allocation of
persistent memory, one for every fence, and one for a return somebody waits for. -/
def coreWeight (d : Facts) (returnHasWeight : Bool) (v : ValueId) : SessionM a Nat := do
  match a.module.operation? v with
  | some (.store _ p) => return (← mayPoint d p).toNat
  | some (.call _ args) =>
    if d.isAllocCall a.module v then return 1
    match a.module.intrinsicOf? v with
    | some .flush => return (← mayPointFirst d args).toNat
    | some .fence => return 1
    | _ => return 0
  | some (.ret _) => return returnHasWeight.toNat
  | _ => return 0

/-- The parameters whose arguments cannot point to persistent memory. -/
def volatileParams (d : Facts) : List (ValueId × ValueId) → SessionM a (List ValueId)
  | [] => return []
  | (param, arg) :: rest => do
    let may ← mayPoint d arg
    let others ← volatileParams d rest
    return if may then others else param :: others
termination_by structural pairs => pairs

/-- What a callee knows on entry: which of its parameters are volatile, and what
is known about globals.  What is known about the caller's own values is left
behind. -/
def doCall (d : Descriptor) (call : ValueId) (callee : FunctionId) : SessionM a Descriptor := do
  if !a.module.isCall call then return d
  let params := (a.module.function? callee).elim [] (·.params)
  let volatile ← volatileParams d.value (params.zip (a.module.callArgs call))
  share d { d.value with notLocal := .ofList volatile }

/-- What the caller knows after a return.  It adopts the volatile globals the
callee knows of, and learns from the returned value whether the call's result
may point to persistent memory. -/
def doReturn (callee caller : Descriptor) (ret call : ValueId) : SessionM a Descriptor := do
  let d := caller.value
  let notGlobal := d.notGlobal.insertMany callee.value.notGlobal.toList
  let notLocal ← match a.module.operation? ret with
    | some (.ret (some v)) => do
      let may ← mayPoint callee.value v
      pure (Facts.put d.notLocal call !may)
    | _ => pure d.notLocal
  share caller { d with notLocal, notGlobal }

/-- What is known after learning whether a value is persistent memory. -/
def update (d : Descriptor) (v : ValueId) (isNvm : Bool) : SessionM a Descriptor :=
  share d (d.value.update a.module v isNvm)

end Session

end PmemPaths.Nvm
