import PmemPaths.Nvm.Session

/-!
# Answers of a session

Questions and steps on facts ask a session for the sites of values and for identities.
They leave everything else in it alone (`Session.Quiet`), and what they answer depends
on the facts only, not on what the session was asked before.  So each has a plain
function beside it that gives the answer.
-/

namespace PmemPaths.Nvm

open PmemPaths.Ir (ValueId FunctionId Module)
open PmemPaths.PointsTo (Objects)

variable {a : Analysis} {β γ : Type}

/-! ## Plain answers -/

namespace Facts

variable (a) (d : Facts)

/-- The first of some values, when there is one, may point to persistent memory. -/
def mayPointFirst : List ValueId → Bool
  | [] => false
  | v :: _ => d.mayPoint a v

/-- What an instruction weighs by itself. -/
def coreWeight (returnHasWeight : Bool) (v : ValueId) : Nat :=
  match a.module.operation? v with
  | some (.store _ p) => (d.mayPoint a p).toNat
  | some (.call _ args) =>
    if d.isAllocCall a.module v then 1
    else match a.module.intrinsicOf? v with
      | some .flush => (d.mayPointFirst a args).toNat
      | some .fence => 1
      | _ => 0
  | some (.ret _) => returnHasWeight.toNat
  | _ => 0

/-- The parameters whose arguments cannot point to persistent memory. -/
def volatileParams (pairs : List (ValueId × ValueId)) : List ValueId :=
  (pairs.filter fun e => !d.mayPoint a e.2).map (·.1)

/-- The parameters of a function, each with the argument a call passes for it. -/
def passed (m : Module) (call : ValueId) (callee : FunctionId) : List (ValueId × ValueId) :=
  ((m.function? callee).elim [] (·.params)).zip (m.callArgs call)

/-- What a callee knows on entry. -/
def onEntry (call : ValueId) (callee : FunctionId) : Facts :=
  if a.module.isCall call then
    { d with notLocal := .ofList (d.volatileParams a (passed a.module call callee)) }
  else d

/-- What a caller knows after a return. -/
def onReturn (callee caller : Facts) (ret call : ValueId) : Facts :=
  { caller with
    notGlobal := caller.notGlobal.insertMany callee.notGlobal.toList
    notLocal := match a.module.operation? ret with
      | some (.ret (some v)) => put caller.notLocal call !callee.mayPoint a v
      | _ => caller.notLocal }

end Facts

/-! ## Quiet operations -/

namespace Session

/-- The operation leaves alone what the session keeps besides sites and identities, and
its answer has a property. -/
def Quiet (act : SessionM a β) (P : β → Prop) : Prop :=
  ∀ s, (∃ memo n, s.nextId ≤ n ∧ (act s).2 = { s with memo, nextId := n }) ∧ P (act s).1

variable {P : β → Prop} {Q : γ → Prop} {d : Facts} {c : Descriptor} {v call : ValueId}

theorem Quiet.pure {b : β} (h : P b) : Quiet (a := a) (Pure.pure b) P :=
  fun s => ⟨⟨s.memo, s.nextId, Nat.le_refl _, rfl⟩, h⟩

/-- One quiet operation after another is quiet, if the second is so whatever the first may
answer. -/
theorem Quiet.bind {act : SessionM a β} {next : β → SessionM a γ} (h : Quiet act P)
    (hnext : ∀ b, P b → Quiet (next b) Q) : Quiet (act >>= next) Q := by
  intro s
  obtain ⟨⟨memo, n, hn, hs⟩, hb⟩ := h s
  obtain ⟨⟨memo', n', hn', hs'⟩, hc⟩ := hnext _ hb (act s).2
  refine ⟨⟨memo', n', ?_, hs'.trans ?_⟩, hc⟩
  · rw [hs] at hn'
    exact Nat.le_trans hn hn'
  · rw [hs]

theorem Quiet.answer {act : SessionM a β} {b : β} (h : Quiet act (· = b)) (s : Session a) :
    (act s).1 = b := (h s).2

/-- The sites of a value are looked up once and kept, and are the same every time. -/
theorem sites_quiet : Quiet (a := a) (sites v) (· = a.sites v) :=
  fun s => ⟨⟨_, s.nextId, Nat.le_refl _, rfl⟩, s.memo.ask_fst v⟩

theorem fresh_quiet : Quiet (a := a) fresh fun _ => True :=
  fun s => ⟨⟨s.memo, _, Nat.le_succ _, rfl⟩, trivial⟩

/-- What is shared are the facts that were given, under the old identity or a new one. -/
theorem share_quiet {facts : Facts} : Quiet (a := a) (share c facts) (·.value = facts) := by
  rw [share]
  split
  · next h => exact .pure h.symm
  · exact fresh_quiet.bind fun _ _ => .pure rfl

theorem mayPoint_quiet : Quiet (a := a) (mayPoint d v) (· = d.mayPoint a v) := by
  rw [mayPoint, Facts.mayPoint]
  cases d.excludes v with
  | true => exact .pure rfl
  | false => exact sites_quiet.bind fun s hs => .pure (by rw [hs]; rfl)

theorem mayPointFirst_quiet {vs : List ValueId} :
    Quiet (a := a) (mayPointFirst d vs) (· = d.mayPointFirst a vs) := by
  cases vs with
  | nil => exact .pure rfl
  | cons v vs => exact mayPoint_quiet

/-- What an instruction weighs by itself does not depend on what was asked before. -/
theorem coreWeight_quiet {r : Bool} :
    Quiet (a := a) (coreWeight d r v) (· = d.coreWeight a r v) := by
  rw [coreWeight, Facts.coreWeight]
  cases a.module.operation? v with
  | none => exact .pure rfl
  | some op =>
    cases op with
    | store x p => exact mayPoint_quiet.bind fun b hb => .pure (by rw [hb])
    | call f args =>
      dsimp only
      cases d.isAllocCall a.module v with
      | true => exact .pure rfl
      | false =>
        cases a.module.intrinsicOf? v with
        | none => exact .pure rfl
        | some intrinsic =>
          cases intrinsic with
          | flush => exact mayPointFirst_quiet.bind fun b hb => .pure (by rw [hb]; rfl)
          | fence | vaStart | vaCopy | vaEnd => exact .pure rfl
    | ret x => exact .pure rfl
    | alloca | load p | gep x ix | cast x | phi inc | branch x bs | unreachable | other xs =>
      exact .pure rfl

theorem volatileParams_quiet {pairs : List (ValueId × ValueId)} :
    Quiet (a := a) (volatileParams d pairs) (· = d.volatileParams a pairs) := by
  induction pairs with
  | nil => exact .pure rfl
  | cons e rest ih =>
    refine mayPoint_quiet.bind fun may hmay => ih.bind fun others hothers => .pure ?_
    rw [Facts.volatileParams, List.filter_cons, ← hmay, hothers]
    cases may <;> rfl

/-- Entering a call answers what the callee knows. -/
theorem doCall_quiet {callee : FunctionId} :
    Quiet (a := a) (doCall c call callee) (·.value = c.value.onEntry a call callee) := by
  rw [doCall, Facts.onEntry]
  cases a.module.isCall call with
  | false => exact .pure rfl
  | true =>
    refine volatileParams_quiet.bind fun params hparams => ?_
    rw [hparams]
    exact share_quiet

/-- Returning from a call answers what the caller knows then. -/
theorem doReturn_quiet {callee : Descriptor} {ret : ValueId} :
    Quiet (a := a) (doReturn callee c ret call)
      (·.value = callee.value.onReturn a c.value ret call) := by
  rw [doReturn, Facts.onReturn]
  have hkeep : ∀ notLocal, Quiet (a := a)
      (Pure.pure notLocal >>= fun notLocal => share c { c.value with
        notLocal, notGlobal := c.value.notGlobal.insertMany callee.value.notGlobal.toList })
      (·.value = { c.value with
        notLocal, notGlobal := c.value.notGlobal.insertMany callee.value.notGlobal.toList }) :=
    fun _ => share_quiet
  cases a.module.operation? ret with
  | none => exact hkeep _
  | some op =>
    cases op with
    | ret r =>
      cases r with
      | none => exact hkeep _
      | some x => exact mayPoint_quiet.bind fun may hmay => by rw [hmay]; exact hkeep _
    | alloca | load p | store x p | gep x ix | cast x | phi inc | call f xs | branch x bs
    | unreachable | other xs => exact hkeep _

theorem update_quiet {isNvm : Bool} :
    Quiet (a := a) (update c v isNvm) (·.value = c.value.update a.module v isNvm) :=
  share_quiet

end Session

end PmemPaths.Nvm
