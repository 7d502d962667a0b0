import PmemPaths.Proofs.Nvm.Desk

/-!
# Constructions come to an end

Functions call each other in any way, and making the context of one asks for the contexts
of those it calls.  Nevertheless every construction returns, in one way only
(`Session.construct_returns`).  The bound on the nesting has no part in it: any higher
bound gives the same context and the same session.

What makes the nesting finite is that it never comes back to a key that is under
construction.  This is said of the constructions that begin on the way to a context, with
no bound on how deep they are (`Session.Starts`).
-/

namespace PmemPaths.Nvm

open PmemPaths.Ir

variable {a : Analysis}

namespace Session

variable {s s' s'' : Session a} {c c' c'' : Context} {f : FunctionId} {key : ContextKey}
  {t : Task} {n : Nat}

/-! ## Constructions have one result -/

/-- How a context comes about is determined by the session. -/
theorem Performs.unique (h : Performs t s c s') (h' : Performs t s c'' s'') :
    c'' = c ∧ s'' = s' := by
  induction h generalizing c'' s'' with
  | found hintern hlookup =>
    cases h' with
    | found hintern' hlookup' =>
      cases hintern.symm.trans hintern'
      cases hlookup.symm.trans hlookup'
      exact ⟨rfl, rfl⟩
    | built hintern' hlookup' =>
      cases hintern.symm.trans hintern'
      cases hlookup.symm.trans hlookup'
  | built hintern hlookup hbegin hbare _ hfinish hinsert ih =>
    cases h' with
    | found hintern' hlookup' =>
      cases hintern.symm.trans hintern'
      cases hlookup.symm.trans hlookup'
    | built hintern' hlookup' hbegin' hbare' hgrown' hfinish' hinsert' =>
      cases hintern.symm.trans hintern'
      cases hlookup.symm.trans hlookup'
      cases hbegin.symm.trans hbegin'
      cases hbare.symm.trans hbare'
      obtain ⟨rfl, rfl⟩ := ih hgrown'
      cases hfinish.symm.trans hfinish'
      cases hinsert.symm.trans hinsert'
      exact ⟨rfl, rfl⟩
  | none =>
    cases h'
    exact ⟨rfl, rfl⟩
  | skip hcallee _ ih =>
    cases h' with
    | skip _ hrest' => exact ih hrest'
    | recursive hcallee' => cases hcallee.symm.trans hcallee'
    | child hcallee' => cases hcallee.symm.trans hcallee'
  | recursive hcallee hcall hintern hmarked _ ih =>
    cases h' with
    | skip hcallee' => cases hcallee.symm.trans hcallee'
    | recursive hcallee' hcall' hintern' _ hrest' =>
      cases hcallee.symm.trans hcallee'
      cases hcall.symm.trans hcall'
      cases hintern.symm.trans hintern'
      exact ih hrest'
    | child hcallee' hcall' hintern' hfree' =>
      cases hcallee.symm.trans hcallee'
      cases hcall.symm.trans hcall'
      cases hintern.symm.trans hintern'
      cases hmarked.symm.trans hfree'
  | child hcallee hcall hintern hfree hmay _ _ ihchild ih =>
    cases h' with
    | skip hcallee' => cases hcallee.symm.trans hcallee'
    | recursive hcallee' hcall' hintern' hmarked' =>
      cases hcallee.symm.trans hcallee'
      cases hcall.symm.trans hcall'
      cases hintern.symm.trans hintern'
      cases hfree.symm.trans hmarked'
    | child hcallee' hcall' hintern' _ hmay' hchild' hrest' =>
      cases hcallee.symm.trans hcallee'
      cases hcall.symm.trans hcall'
      cases hintern.symm.trans hintern'
      cases hmay.symm.trans hmay'
      obtain ⟨rfl, rfl⟩ := ihchild hchild'
      exact ih hrest'

/-! ## Constructions that begin -/

/-- On the way to a context the construction for a key begins, in the session that looked
for the key in vain.  A construction may begin whether its key is marked or not. -/
inductive Starts : Task → Session a → ContextKey → Session a → Prop
  | self {f : FunctionId} {state entry : Descriptor} {r : Bool} {s s₁ s₂ : Session a} :
      intern state s = (entry, s₁) → lookup ⟨f, entry.value⟩ s₁ = (none, s₂) →
      Starts (.context f state r) s ⟨f, entry.value⟩ s₂
  /-- In one of its children. -/
  | inside {f : FunctionId} {state entry : Descriptor} {r started : Bool} {bare : Context}
      {s s₁ s₂ s₃ s₄ s' : Session a} {key : ContextKey} :
      intern state s = (entry, s₁) → lookup ⟨f, entry.value⟩ s₁ = (none, s₂) →
      begin ⟨f, entry.value⟩ s₂ = (started, s₃) → bareContext f entry r s₃ = (bare, s₄) →
      Starts (.children bare (a.module.instructionsOf f)) s₄ key s' →
      Starts (.context f state r) s key s'
  | skip {c : Context} {call : ValueId} {calls : List ValueId} {s s' : Session a}
      {key : ContextKey} :
      (a.module.calledFunction? call).filter a.module.isDefined = none →
      Starts (.children c calls) s key s' → Starts (.children c (call :: calls)) s key s'
  | recursive {c : Context} {call : ValueId} {calls : List ValueId} {callee : FunctionId}
      {d state : Descriptor} {s s₁ s₂ s' : Session a} {key : ContextKey} :
      (a.module.calledFunction? call).filter a.module.isDefined = some callee →
      doCall c.state call callee s = (d, s₁) → intern d s₁ = (state, s₂) →
      s₂.inProgress.contains ⟨callee, state.value⟩ = true →
      Starts (.children c calls) s₂ key s' → Starts (.children c (call :: calls)) s key s'
  | child {c : Context} {call : ValueId} {calls : List ValueId} {callee : FunctionId}
      {d state : Descriptor} {r : Bool} {s s₁ s₂ s₃ s' : Session a} {key : ContextKey} :
      (a.module.calledFunction? call).filter a.module.isDefined = some callee →
      doCall c.state call callee s = (d, s₁) → intern d s₁ = (state, s₂) →
      s₂.inProgress.contains ⟨callee, state.value⟩ = false →
      mayPoint c.state.value call s₂ = (r, s₃) →
      Starts (.context callee state r) s₃ key s' → Starts (.children c (call :: calls)) s key s'
  | behind {c child : Context} {call : ValueId} {calls : List ValueId} {callee : FunctionId}
      {d state : Descriptor} {r : Bool} {s s₁ s₂ s₃ s₄ s' : Session a} {key : ContextKey} :
      (a.module.calledFunction? call).filter a.module.isDefined = some callee →
      doCall c.state call callee s = (d, s₁) → intern d s₁ = (state, s₂) →
      s₂.inProgress.contains ⟨callee, state.value⟩ = false →
      mayPoint c.state.value call s₂ = (r, s₃) →
      Performs (.context callee state r) s₃ child s₄ →
      Starts (.children (addChild (a := a) c call child) calls) s₄ key s' →
      Starts (.children c (call :: calls)) s key s'

/-- The context asked for is not under construction. -/
def Task.Free (s : Session a) : Task → Prop
  | .context f state _ => s.inProgress.contains ⟨f, state.value⟩ = false
  | .children _ _ => True

/-- What begins to be constructed is not under construction yet. -/
theorem Starts.free (h : Starts t s key s') (hs : s.Interns) (ht : t.Free s) :
    s'.inProgress.contains key = false := by
  induction h with
  | self hintern hlookup =>
    rw [inProgress_lookup hlookup, inProgress_intern hintern, hs.value_eq hintern]
    exact ht
  | @inside f _ entry _ _ _ _ _ s₂ s₃ _ _ _ hintern hlookup hbegin hbare _ ih =>
    have hfree : s₂.inProgress.contains ⟨f, entry.value⟩ = false := by
      rw [inProgress_lookup hlookup, inProgress_intern hintern, hs.value_eq hintern]
      exact ht
    have hstarted : begin ⟨f, entry.value⟩ s₂ = (true, s₃) := by
      rw [begin_run, hfree, Prod.mk.injEq] at hbegin
      rw [begin_run, hfree, Prod.mk.injEq]
      exact ⟨rfl, hbegin.2⟩
    exact ih ((hs.intern hintern).aside (start_aside hlookup hstarted hbare)) trivial
  | skip _ _ ih => exact ih hs trivial
  | recursive _ hcall hintern _ _ ih =>
    exact ih ((hs.aside (doCall_quiet.aside hcall)).intern hintern) trivial
  | child _ hcall hintern hfree hmay _ ih =>
    have hs₂ := (hs.aside (doCall_quiet.aside hcall)).intern hintern
    refine ih (hs₂.aside (mayPoint_quiet.aside hmay)) ?_
    rw [Task.Free, mayPoint_quiet.inProgress hmay]
    exact hfree
  | behind _ hcall hintern _ hmay hchild _ ih =>
    have hs₂ := (hs.aside (doCall_quiet.aside hcall)).intern hintern
    exact ih (hchild.interns (hs₂.aside (mayPoint_quiet.aside hmay))) trivial

/-! ## Constructions return -/

/-- Where nothing is under construction, the context of a function with a body is
constructed, in one way only, whatever bound on the nesting is set that is not too low.  No
construction begins for a key that is under construction, and in the end the same keys are
as at the outset. -/
theorem construct_returns (hs : s.Interns) (hidle : s.Idle) (hdef : a.module.isDefined f = true)
    (d : Descriptor) (r : Bool) :
    ∃ c s', CheckedM.construct f d r s = .ok (c, s') ∧
      (∀ c' s'', Performs (.context f d r) s c' s'' ↔ c' = c ∧ s'' = s') ∧
      (∀ n, nestingBound a.module ≤ n → constructWithin n f d r s = (c, s')) ∧
      (∀ key s₁, Starts (.context f d r) s key s₁ → s₁.inProgress.contains key = false) ∧
      ∀ key, s'.inProgress.contains key = s.inProgress.contains key := by
  have hfree := hidle ⟨f, d.value⟩
  have hperforms := construct_performs hs hfree r
  refine ⟨_, _, (onFunction_run f _ s).trans (if_pos (Module.isSome_of_isDefined hdef)),
    fun c' s'' => ⟨fun h => hperforms.unique h, ?_⟩, fun n hn => ?_,
    fun key s₁ hstarts => hstarts.free hs hfree, hperforms.marks⟩
  · rintro ⟨rfl, rfl⟩
    exact hperforms
  · obtain ⟨hcontext, hsession⟩ := hperforms.unique (constructWithin_performs hn hs hfree r)
    exact Prod.ext hcontext hsession

end Session

/-- Two functions that pass their parameter to each other. -/
def mutualCalls : Listing where
  name := "m"
  items := [.declare "f" ["x"] false, .declare "g" ["y"] false,
    .define ⟨0⟩ [.instruction "r" (.call (.direct ⟨1⟩) [⟨1⟩]), .ret none],
    .define ⟨1⟩ [.instruction "s" (.call (.direct ⟨0⟩) [⟨3⟩]), .ret none]]

/-- The context of one of them is constructed when that of the other one is there. -/
theorem Session.construct_returns_mutualCalls : ∃ m, mutualCalls.build = .ok m ∧ ∀ pointsTo,
    ∃ (k : Desk ⟨m, pointsTo⟩) (c : Context), Desk.Reaches {} k ∧ c ∈ k.contexts ∧
      k.session.Interns ∧ k.session.Idle ∧ m.isDefined ⟨1⟩ = true ∧
      ∀ d r, ∃ c' s', CheckedM.construct ⟨1⟩ d r k.session = .ok (c', s') ∧ s'.Idle := by
  obtain ⟨m, hl, hf, hg⟩ := Listing.exists_build (l := mutualCalls)
    (p := fun m => m.isDefined ⟨0⟩ ∧ m.isDefined ⟨1⟩) (by decide +kernel)
  have hm := Listing.build_built hl
  refine ⟨m, hl, fun pointsTo => ?_⟩
  have hheld : Desk.plain m 0 ∈ [Desk.plain m 0] := List.mem_cons_self
  obtain ⟨c, s, hrun⟩ := Desk.exists_construct (a := ⟨m, pointsTo⟩) (Module.isSome_of_isDefined hf)
    (Desk.plain m 0) false { nextId := 1 }
  have hreaches := (Desk.reaches_plain (a := ⟨m, pointsTo⟩) 1).tail
    (.context (.construct ⟨0⟩ false hheld) hrun)
  obtain ⟨hinterns, hidle⟩ := Desk.interns_and_idle hm hreaches
  refine ⟨_, c, hreaches, List.mem_cons_self, hinterns, hidle, hg, fun d r => ?_⟩
  obtain ⟨c', s', hconstruct, -, -, -, hmarks⟩ :=
    Session.construct_returns (a := ⟨m, pointsTo⟩) hinterns hidle hg d r
  exact ⟨c', s', hconstruct, fun key => (hmarks key).trans (hidle key)⟩

end PmemPaths.Nvm
