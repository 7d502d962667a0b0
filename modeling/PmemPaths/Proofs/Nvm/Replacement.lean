import PmemPaths.Proofs.Nvm.Construction

/-!
# Replacement of contexts

Learning something about a context makes another context of the same function: one with
another child (`Session.withChild_makes`), one in which a call has a child of the function
it was found to call (`Session.resolveCall_makes`), or one under other facts
(`Session.rebuild_makes`).

What a step means for a thread depends on the function of its context only
(`Session.Turn`): a call enters a context of the function the step goes to, unless the
step goes on in the function of the call, behind its first instruction.
-/

namespace PmemPaths.Nvm

open PmemPaths.Ir

variable {a : Analysis}

namespace Session

variable {K K' : Set Context} {s s' : Session a} {c child : Context} {call : ValueId}
  {f callee : FunctionId}

/-- Nothing is under construction. -/
def Idle (s : Session a) : Prop := ∀ key, s.inProgress.contains key = false

theorem Idle.empty : Idle ({} : Session a) := fun _ => Std.HashSet.contains_empty

theorem Advance.idle (h : Advance K s K' s') (hs : s.Idle) : s'.Idle :=
  fun key => (h.marks key).trans (hs key)

/-- A context like another one but for its identity and its child at a call. -/
def revise (m : Module) (c : Context) (id : Nat) (call : ValueId) (child : Context) : Context :=
  let weights := c.weights.insert call (addCapped (c.coreWeight call) (child.rootPriority m))
  { c with
    id, weights
    priorities := priorities m c.function weights
    children := Context.setChild call child c.children
    hasCoreWeight := c.hasCoreWeight || child.hasCoreWeight }

theorem withChild_run (c : Context) (call : ValueId) (child : Context) (s : Session a) :
    withChild c call child s =
      (revise a.module c s.nextId call child, { s with nextId := s.nextId + 1 }) := rfl

@[simp]
theorem child?_revise {m : Module} {id : Nat} (v : ValueId) :
    (revise m c id call child).child? v = if v = call then some child else c.child? v :=
  Context.child?_of_children_eq rfl v

theorem consistent_revise {id : Nat} (h : c.Consistent a) :
    (revise a.module c id call child).Consistent a :=
  ⟨h.toWeighed.setChild, h.function, rfl⟩

/-- The context with another child was made. -/
theorem withChild_makes (hs : s.Sound K) (hc : c ∈ K) (hchild : child ∈ K) (call : ValueId) :
    Makes K s (withChild c call child) fun K' _ c' =>
      c' ∈ K' ∧ ∃ id, c' = revise a.module c id call child := by
  obtain ⟨K', ha, hnew, hid⟩ := fresh_makes hs
  rw [Makes, withChild_run]
  refine ⟨_, ha.add (consistent_revise (hs.consistent c hc)) (fun v w hw => ?_) hid hnew,
    .inr rfl, _, rfl⟩
  rw [child?_revise] at hw
  split at hw
  · cases hw
    exact ha.made hchild
  · exact ha.made (hs.child c hc v w hw)

/-- A call of a function with a body has a child of that function afterwards. -/
theorem resolveCall_makes (hm : a.module.Built) (hs : s.Sound K) (hidle : s.Idle) (hc : c ∈ K)
    (call : ValueId) (callee : FunctionId) :
    Makes K s (resolveCall c call callee) fun K' _ c' =>
      MadeFor K' c.function c.state.value c' ∧
        (a.module.isDefined callee = true →
          ∃ child, c'.child? call = some child ∧ child.function = callee) := by
  rw [resolveCall]
  split
  · next hkeep =>
    refine .pure hs ⟨⟨hc, rfl, rfl⟩, fun hdef => ?_⟩
    rw [hdef, Bool.not_true, Bool.or_false, Option.any_eq_true] at hkeep
    obtain ⟨child, hchild, hfun⟩ := hkeep
    exact ⟨child, hchild, of_decide_eq_true hfun⟩
  · next hchange =>
    have hdef : a.module.isDefined callee = true := by
      simpa using fun hnot => hchange (Bool.or_eq_true_iff.mpr (.inr hnot))
    refine (doCall_quiet.makes hs).bind fun K₁ s₁ state ha₁ _ => ?_
    refine (mayPoint_quiet.makes ha₁.sound).bind fun K₂ s₂ r ha₂ _ => ?_
    have ha := ha₁.trans ha₂
    refine (construct_makes hm ha.sound (ha.idle hidle) (Module.isSome_of_isDefined hdef) r).bind
      fun K₃ s₃ child ha₃ hmade => ?_
    have ha' := ha.trans ha₃
    refine (withChild_makes ha'.sound (ha'.made hc) hmade.mem call).imp fun K₄ s₄ c' _ hc' => ?_
    obtain ⟨hmem, id, rfl⟩ := hc'
    exact ⟨⟨hmem, rfl, rfl⟩, fun _ => ⟨child, by simp, hmade.function⟩⟩

theorem foldlM_resolveCall_makes (hm : a.module.Built) {facts : Facts}
    (calls : List (ValueId × FunctionId)) (hs : s.Sound K) (hidle : s.Idle)
    (hc : MadeFor K f facts c) :
    Makes K s (calls.foldlM (fun c (call, callee) => resolveCall c call callee) c) fun K' _ c' =>
      MadeFor K' f facts c' := by
  induction calls generalizing c K s with
  | nil => exact .pure hs hc
  | cons e calls ih =>
    rw [List.foldlM_cons]
    refine (resolveCall_makes hm hs hidle hc.mem e.1 e.2).bind fun K₁ s₁ c₁ ha₁ hc₁ => ?_
    exact ih ha₁.sound (ha₁.idle hidle) (hc.function ▸ hc.facts ▸ hc₁.1)

/-- A context under other facts is one of the same function. -/
theorem rebuild_makes (hm : a.module.Built) (hs : s.Sound K) (hidle : s.Idle) (hc : c ∈ K)
    (state : Descriptor) :
    Makes K s (rebuild c state) fun K' _ c' => MadeFor K' c.function state.value c' := by
  rw [rebuild]
  refine (construct_makes hm hs hidle (hs.consistent c hc).function _).bind
    fun K₁ s₁ next ha₁ hnext => ?_
  exact foldlM_resolveCall_makes hm _ ha₁.sound (ha₁.idle hidle) hnext

/-- A context under what was learned is one of the same function. -/
theorem updateContext_makes (hm : a.module.Built) (hs : s.Sound K) (hidle : s.Idle) (hc : c ∈ K)
    (v : ValueId) (isNvm : Bool) :
    Makes K s (updateContext c v isNvm) fun K' _ c' =>
      MadeFor K' c.function (c.state.value.update a.module v isNvm) c' := by
  rw [updateContext]
  refine (update_quiet.makes hs).bind fun K₁ s₁ state ha₁ hstate => ?_
  split
  · next hsame => exact .pure ha₁.sound ⟨ha₁.made hc, rfl, hsame ▸ hstate⟩
  · exact hstate ▸ rebuild_makes hm ha₁.sound (ha₁.idle hidle) (ha₁.made hc) state

/-! ## Steps seen from a context -/

/-- Where a thread goes on, by what the step does in the program. -/
inductive Turn (a : Analysis) (K : Set Context) (c : Context) (pc next : ValueId) :
    NextContext → Prop
  | same : a.module.isReturn pc = false →
      (a.module.isCall pc = true → ∀ i, a.module.instruction? next = some i →
        i.function = c.function ∧ a.module.firstInstruction? i.function ≠ some next) →
      Turn a K c pc next .same
  | enter {i : Instruction} {child : Context} : a.module.isCall pc = true →
      a.module.instruction? next = some i →
      (i.function = c.function → a.module.firstInstruction? i.function = some next) →
      child ∈ K → child.function = i.function → Turn a K c pc next (.enter child)
  | leave : a.module.isReturn pc = true → Turn a K c pc next .leave

/-- A call enters its child when that is of the function the step goes to. -/
theorem nextContext_of_child {pc next : ValueId} {i : Instruction}
    (hcall : a.module.isCall pc = true) (hi : a.module.instruction? next = some i)
    (hfirst : i.function = c.function → a.module.firstInstruction? i.function = some next)
    (hchild : c.child? pc = some child) (hfun : child.function = i.function) (s : Session a) :
    nextContext c pc next s = (.enter child, s) := by
  obtain ⟨op, hop, hop'⟩ := (Option.any_eq_true _ _).mp hcall
  have hgo : (i.function = c.function && a.module.firstInstruction? i.function ≠ some next) =
      false := by
    simpa using fun h => hfirst h
  have hfound : (c.child? pc).filter (·.function = i.function) = some child := by
    rw [hchild, Option.filter_some, if_pos (decide_eq_true hfun)]
  cases op with
  | call g args =>
    simp only [nextContext, hop, hi, hgo, hfound]
    rfl
  | alloca | load p | store x p | gep x ix | cast x | phi inc | ret r | branch x bs
  | unreachable | other xs => cases hop'

/-- Instructions that neither call nor return leave a thread in its context. -/
theorem Turn.same_of_operation {pc next : ValueId} {op : Option Operation}
    (hop : a.module.operation? pc = op) (hcall : op.any (·.isCall) = false)
    (hreturn : op.any (·.isReturn) = false) : Turn a K c pc next .same := by
  refine .same (by rw [Module.isReturn, hop, hreturn]) fun h => ?_
  rw [Module.isCall, hop, hcall] at h
  cases h

/-- A step is a turn to a context that was made. -/
theorem nextContext_makes (hm : a.module.Built) (hs : s.Sound K) (hidle : s.Idle) (hc : c ∈ K)
    {pc next : ValueId} (hexists : a.module.isCall pc = true →
      ∀ i, a.module.instruction? next = some i → (a.module.function? i.function).isSome = true) :
    Makes K s (nextContext c pc next) fun K' _ n => Turn a K' c pc next n := by
  rw [nextContext]
  cases hop : a.module.operation? pc with
  | none => exact .pure hs (.same_of_operation hop rfl rfl)
  | some op =>
    cases op with
    | alloca | load p | store x p | gep x ix | cast x | phi inc | branch x bs | unreachable
    | other xs => exact .pure hs (.same_of_operation hop rfl rfl)
    | ret r => exact .pure hs (.leave (by rw [Module.isReturn, hop]; rfl))
    | call g args =>
      have hcall : a.module.isCall pc = true := by rw [Module.isCall, hop]; rfl
      have hreturn : a.module.isReturn pc = false := by rw [Module.isReturn, hop]; rfl
      dsimp only
      cases hi : a.module.instruction? next with
      | none => exact .pure hs (.same hreturn fun _ i hi' => by rw [hi] at hi'; cases hi')
      | some i =>
        dsimp only
        split
        · next hstay =>
          rw [Bool.and_eq_true, decide_eq_true_eq, decide_eq_true_eq] at hstay
          refine .pure hs (.same hreturn fun _ j hj => ?_)
          rw [hi] at hj
          cases hj
          exact hstay
        · next hgo =>
          have hfirst : i.function = c.function →
              a.module.firstInstruction? i.function = some next := fun hfun => by
            simpa [hfun] using hgo
          cases hchild : (c.child? pc).filter (·.function = i.function) with
          | some child =>
            obtain ⟨hchild, hfun⟩ := Option.filter_eq_some_iff.mp hchild
            exact .pure hs (.enter hcall hi hfirst (hs.child c hc _ _ hchild)
              (of_decide_eq_true hfun))
          | none =>
            refine (doCall_quiet.makes hs).bind fun K₁ s₁ state ha₁ _ => ?_
            refine (mayPoint_quiet.makes ha₁.sound).bind fun K₂ s₂ r ha₂ _ => ?_
            have ha := ha₁.trans ha₂
            refine (construct_makes hm ha.sound (ha.idle hidle) (hexists hcall i hi) r).bind
              fun K₃ s₃ child ha₃ hmade => ?_
            exact .pure ha₃.sound (.enter hcall hi hfirst hmade.mem hmade.function)

end Session

end PmemPaths.Nvm
