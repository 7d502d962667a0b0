import Mathlib.Data.Finset.Card
import Mathlib.Logic.Relation
import PmemPaths.Proofs.Nvm.Construction
import PmemPaths.Proofs.Nvm.Runs

/-!
# Constructions agree with the plain definition

Where no function comes back to itself by calls, what a context weighs has a plain recursive
definition (`outline`): an instruction weighs what it does by itself, and a direct call of a
function with a body also what the callee's context starts with.  There is no session in it,
and nothing is looked up.

A session finds contexts that were made before, for whoever asked first, and leaves out
callees that are under construction.  It gives the plain weights and priorities all the
same, if a function under given facts is always asked for with the same flag
(`Session.construct_eq_outline`).  What is under construction are functions that lead to the
one at hand, so no callee is among them, and what is filed is what the plain definition
gives for the flag it was asked for with.
-/

namespace PmemPaths.Ir.Module

variable {m : Module} {f g : FunctionId}

/-- A function calls another one by name, and that one has a body. -/
def Calls (m : Module) (f g : FunctionId) : Prop := (f, g) ∈ m.callGraphEdges

theorem calls_iff : m.Calls f g ↔ ∃ v ∈ m.instructionsOf f,
    (m.calledFunction? v).filter m.isDefined = some g := by
  rw [Calls, callGraphEdges, List.mem_flatMap]
  simp only [List.mem_filterMap, Option.map_eq_some_iff, Prod.mk.injEq]
  constructor
  · rintro ⟨f', -, v, hv, g', hg, rfl, rfl⟩
    exact ⟨v, hv, hg⟩
  · rintro ⟨v, hv, hg⟩
    exact ⟨f, mem_definedFunctions.mpr (isDefined_of_mem hv), v, hv, g, hg, rfl, rfl⟩

/-- No function comes back to itself by such calls. -/
def Acyclic (m : Module) : Prop := ∀ f, ¬Relation.TransGen m.Calls f f

section

open scoped Classical

/-- The functions that calls lead to. -/
noncomputable def below (m : Module) (f : FunctionId) : Finset FunctionId :=
  m.functionIds.toFinset.filter (Relation.TransGen m.Calls f ·)

theorem mem_below_of_calls (h : m.Calls f g) : g ∈ m.below f := by
  obtain ⟨v, -, hg⟩ := calls_iff.mp h
  obtain ⟨-, hdef⟩ := Option.filter_eq_some_iff.mp hg
  obtain ⟨fn, hfn, -⟩ := isDefined_iff.mp hdef
  exact Finset.mem_filter.mpr ⟨List.mem_toFinset.mpr (mem_functionIds.mpr ⟨fn, hfn⟩), .single h⟩

/-- A callee leads to fewer functions, since it does not lead to itself. -/
theorem Acyclic.card_below_lt (hm : m.Acyclic) (h : m.Calls f g) :
    (m.below g).card < (m.below f).card := by
  refine Finset.card_lt_card (Finset.ssubset_iff_of_subset ?_ |>.mpr ⟨g, mem_below_of_calls h, ?_⟩)
  · intro k hk
    obtain ⟨hmem, hreach⟩ := Finset.mem_filter.mp hk
    exact Finset.mem_filter.mpr ⟨hmem, .head h hreach⟩
  · exact fun hg => hm g (Finset.mem_filter.mp hg).2

end

/-- Calls that always lead to functions declared before do not come back. -/
theorem acyclic_of_lt (h : ∀ e ∈ m.callGraphEdges, e.2.index < e.1.index) : m.Acyclic := by
  have hlt : ∀ f g, Relation.TransGen m.Calls f g → g.index < f.index := by
    intro f g hreach
    induction hreach with
    | single hcall => exact h _ hcall
    | tail _ hcall ih => exact (h _ hcall).trans ih
  exact fun f hreach => Nat.lt_irrefl _ (hlt f f hreach)

end PmemPaths.Ir.Module

namespace PmemPaths.Nvm

open PmemPaths.Ir

variable {a : Analysis} {f g : FunctionId} {v : ValueId} {d : Facts} {r : Bool}

/-! ## The plain definition -/

/-- What a context weighs, apart from how it was made. -/
structure Outline where
  /-- The function. -/
  function : FunctionId
  /-- What the instructions weigh, callees included. -/
  weights : Table
  /-- Something weighs by itself, here or below. -/
  hasCoreWeight : Bool

namespace Outline

/-- The priorities that follow from the weights. -/
def priorities (m : Module) (o : Outline) : Table := Nvm.priorities m o.function o.weights

/-- The priority at the entry: that of the first instruction that is not a phi. -/
def rootPriority (m : Module) (o : Outline) : Nat :=
  ((m.entryFirstNonPhi? o.function).bind ((o.priorities m)[·]?)).getD o.hasCoreWeight.toNat

/-- What an instruction weighs that weighs so much by itself, with what is below it. -/
def weigh (m : Module) (core : Nat) (below : Option Outline) : Nat :=
  below.elim core fun o => addCapped core (o.rootPriority m)

/-- A function whose calls have these outlines below them. -/
def node (a : Analysis) (f : FunctionId) (d : Facts) (r : Bool) (below : ValueId → Option Outline) :
    Outline where
  function := f
  weights := .ofList ((a.module.instructionsOf f).map fun v =>
    (v, weigh a.module (d.coreWeight a r v) (below v)))
  hasCoreWeight := (a.module.instructionsOf f).any fun v =>
    0 < d.coreWeight a r v || (below v).any (·.hasCoreWeight)

/-- Only what is below the function's own instructions matters. -/
theorem node_congr {below below' : ValueId → Option Outline}
    (h : ∀ v ∈ a.module.instructionsOf f, below v = below' v) :
    node a f d r below = node a f d r below' := by
  have hweights : (a.module.instructionsOf f).map
        (fun v => (v, weigh a.module (d.coreWeight a r v) (below v))) =
      (a.module.instructionsOf f).map
        fun v => (v, weigh a.module (d.coreWeight a r v) (below' v)) :=
    List.map_congr_left fun v hv => by rw [h v hv]
  have hany : ((a.module.instructionsOf f).any fun v =>
        0 < d.coreWeight a r v || (below v).any (·.hasCoreWeight)) =
      (a.module.instructionsOf f).any fun v =>
        0 < d.coreWeight a r v || (below' v).any (·.hasCoreWeight) := by
    rw [Bool.eq_iff_iff, List.any_eq_true, List.any_eq_true]
    exact exists_congr fun v => and_congr_right fun hv => by rw [h v hv]
  rw [node, node, hweights, hany]

end Outline

/-- The plain definition of what the context of a function weighs under given facts. -/
def outline (ha : a.module.Acyclic) (f : FunctionId) (d : Facts) (r : Bool) : Outline :=
  .node a f d r fun v =>
    if _hv : v ∈ a.module.instructionsOf f then
      match _hg : (a.module.calledFunction? v).filter a.module.isDefined with
      | none => none
      | some g => some (outline ha g (d.onEntry a v g) (d.mayPoint a v))
    else none
termination_by (a.module.below f).card
decreasing_by exact ha.card_below_lt (Module.calls_iff.mpr ⟨v, _hv, _hg⟩)

variable (ha : a.module.Acyclic)

/-- What the plain definition puts below an instruction: at a direct call of a function with a
body, what the callee's context weighs under the facts the call leads to. -/
def outlineBelow (d : Facts) (v : ValueId) : Option Outline :=
  ((a.module.calledFunction? v).filter a.module.isDefined).map fun g =>
    outline ha g (d.onEntry a v g) (d.mayPoint a v)

theorem outline_eq : outline ha f d r = .node a f d r (outlineBelow ha d) := by
  rw [outline]
  refine Outline.node_congr fun v hv => ?_
  rw [dif_pos hv, outlineBelow]
  split
  · next hg => rw [hg]; rfl
  · next hg => rw [hg]; rfl

theorem getElem?_weights_outline (hm : a.module.Built) (v : ValueId) :
    (outline ha f d r).weights[v]? = if v ∈ a.module.instructionsOf f then
      some (Outline.weigh a.module (d.coreWeight a r v) (outlineBelow ha d v)) else none := by
  rw [outline_eq, Outline.node]
  exact Context.getElem?_ofList_map (hm.nodup_instructionsOf f) _ v

/-- In the words of a session: an instruction weighs what it does by itself and, at a direct
call of a function with a body, what the callee starts with under the facts after the call,
asked for with whether the result may point to persistent memory.

The outline is written without a session, in words of its own.  This says that these are the
questions a session asks, so that `Session.construct_eq_outline` can be read without them.
No proof rests on it. -/
theorem getElem?_weights_outline_eq_session (hm : a.module.Built)
    (hv : v ∈ a.module.instructionsOf f) (n : Nat) (s : Session a) :
    (outline ha f d r).weights[v]? = some
      (((a.module.calledFunction? v).filter a.module.isDefined).elim
        (Session.coreWeight d r v s).1 fun g => addCapped (Session.coreWeight d r v s).1
          ((outline ha g (Session.doCall ⟨n, d⟩ v g s).1.value
            (Session.mayPoint d v s).1).rootPriority a.module)) := by
  rw [getElem?_weights_outline ha hm, if_pos hv, outlineBelow, Outline.weigh]
  cases (a.module.calledFunction? v).filter a.module.isDefined with
  | none =>
    rw [Option.map_none, Option.elim_none, Option.elim_none, Session.coreWeight_quiet.answer]
  | some g =>
    rw [Option.map_some, Option.elim_some, Option.elim_some, Session.coreWeight_quiet.answer,
      Session.mayPoint_quiet.answer, (Session.doCall_quiet s).2]

/-- The context weighs what the outline says. -/
structure Context.Matches (m : Module) (c : Context) (o : Outline) : Prop where
  function : c.function = o.function
  weights : c.weights = o.weights
  priorities : c.priorities = o.priorities m
  hasCoreWeight : c.hasCoreWeight = o.hasCoreWeight

theorem Context.Matches.rootPriority {m : Module} {c : Context} {o : Outline} (h : c.Matches m o) :
    c.rootPriority m = o.rootPriority m := by
  rw [Context.rootPriority, Outline.rootPriority, h.function, h.priorities, h.hasCoreWeight]

/-! ## What is asked for -/

/-- A context is asked for, outright or to go below one that is. -/
inductive Asked (a : Analysis) (requests : List (ContextKey × Bool)) : ContextKey → Bool → Prop
  | outright {key : ContextKey} {r : Bool} : (key, r) ∈ requests → Asked a requests key r
  | nested {key : ContextKey} {r : Bool} {v : ValueId} {g : FunctionId} :
      Asked a requests key r → v ∈ a.module.instructionsOf key.function →
      (a.module.calledFunction? v).filter a.module.isDefined = some g →
      Asked a requests ⟨g, key.facts.onEntry a v g⟩ (key.facts.mayPoint a v)

/-- Whatever is asked for twice is asked for with the same flag. -/
def Agree (a : Analysis) (requests : List (ContextKey × Bool)) : Prop :=
  ∀ key r r', Asked a requests key r → Asked a requests key r' → r = r'

namespace Session

variable {requests : List (ContextKey × Bool)} {s s' : Session a} {c c' : Context}
  {key : ContextKey} {entry : Descriptor}

/-- The contexts that were asked for in a session, and the session afterwards.  In between
questions may be asked, and descriptors made and interned. -/
inductive Constructions (a : Analysis) : List (ContextKey × Bool) → Session a → Prop
  | empty : Constructions a [] {}
  | construct {requests : List (ContextKey × Bool)} {s s' : Session a} {f : FunctionId}
      {d : Descriptor} {r : Bool} {c : Context} : Constructions a requests s →
      CheckedM.construct f d r s = .ok (c, s') →
      Constructions a ((⟨f, d.value⟩, r) :: requests) s'
  | quiet {requests : List (ContextKey × Bool)} {s : Session a} {β : Type} {act : SessionM a β} :
      Constructions a requests s → Quiet act (fun _ => True) → Constructions a requests (act s).2
  | intern {requests : List (ContextKey × Bool)} {s : Session a} (d : Descriptor) :
      Constructions a requests s → Constructions a requests (intern d s).2

/-- What is interned are the facts asked for, and what is filed was asked for and weighs what
the plain definition says. -/
structure Outlined (requests : List (ContextKey × Bool)) (s : Session a) : Prop where
  interns : s.Interns
  filed : ∀ (key : ContextKey) (c : Context), s.contexts[key]? = some c →
    ∃ r, Asked a requests key r ∧ c.Matches a.module (outline ha key.function key.facts r)

variable {ha}

theorem Outlined.aside (hs : s.Outlined ha requests) (h : Aside s s') : s'.Outlined ha requests :=
  ⟨hs.interns.aside h, fun key c hc => hs.filed key c (h.contexts ▸ hc)⟩

theorem Outlined.intern {d : Descriptor} (hs : s.Outlined ha requests)
    (h : intern d s = (entry, s')) : s'.Outlined ha requests := by
  refine ⟨hs.interns.intern h, fun key c hc => hs.filed key c ?_⟩
  rcases intern_cases h with ⟨-, rfl⟩ | ⟨-, -, rfl⟩ <;> exact hc

/-- What is found under a key weighs what the plain definition says for the flag it is asked
for with. -/
theorem Outlined.matches (hs : s.Outlined ha requests) (hagree : Agree a requests)
    (hc : s.contexts[key]? = some c) (hasked : Asked a requests key r) :
    c.Matches a.module (outline ha key.function key.facts r) := by
  obtain ⟨r', hasked', hmatches⟩ := hs.filed key c hc
  rwa [hagree key r r' hasked hasked']

theorem Outlined.insert (hs : s.Outlined ha requests)
    (hasked : Asked a requests ⟨c.function, c.state.value⟩ r)
    (hc : c.Matches a.module (outline ha c.function c.state.value r))
    (h : insert c s = (c', s')) : s'.Outlined ha requests ∧
      s'.contexts[(⟨c.function, c.state.value⟩ : ContextKey)]? = some c' := by
  rcases insert_cases h with ⟨hknown, rfl⟩ | ⟨-, rfl, rfl⟩
  · exact ⟨hs, hknown⟩
  · refine ⟨⟨hs.interns, fun key e he => ?_⟩, Std.HashMap.getElem?_insert_self⟩
    rw [Std.HashMap.getElem?_insert] at he
    split at he
    · next hkey =>
      cases he
      obtain rfl := beq_iff_eq.mp hkey
      exact ⟨r, hasked, hc⟩
    · exact hs.filed key e he

/-! ## Children one after the other -/

/-- The context has what the calls add to the other one. -/
structure Grown (ha : a.module.Acyclic) (c₀ : Context) (calls : List ValueId) (c : Context) :
    Prop where
  function : c.function = c₀.function
  state : c.state = c₀.state
  weights : ∀ v, c.weights[v]? = if v ∈ calls then
    (outlineBelow ha c₀.state.value v).elim c₀.weights[v]? fun o =>
      some (addCapped (c₀.weights.getD v 0) (o.rootPriority a.module))
    else c₀.weights[v]?
  hasCoreWeight : c.hasCoreWeight = (c₀.hasCoreWeight ||
    calls.any fun v => (outlineBelow ha c₀.state.value v).any (·.hasCoreWeight))

section Grown

variable {c₀ : Context} {call : ValueId} {calls : List ValueId}

theorem Grown.nil : Grown ha c [] c := ⟨rfl, rfl, fun _ => rfl, (Bool.or_false _).symm⟩

theorem Grown.skip (h : Grown ha c₀ calls c)
    (hcall : (a.module.calledFunction? call).filter a.module.isDefined = none) :
    Grown ha c₀ (call :: calls) c := by
  have hnone : outlineBelow ha c₀.state.value call = none := by
    rw [outlineBelow, hcall, Option.map_none]
  refine ⟨h.function, h.state, fun v => ?_, ?_⟩
  · rw [h.weights]
    by_cases hv : v = call
    · subst hv
      simp [hnone]
    · simp [hv]
  · rw [h.hasCoreWeight, List.any_cons, hnone, Option.any_none, Bool.false_or]

/-- A child adds what the plain definition says. -/
theorem Grown.child {child : Context} {o : Outline}
    (h : Grown ha (addChild (a := a) c₀ call child) calls c)
    (hnot : call ∉ calls) (ho : outlineBelow ha c₀.state.value call = some o)
    (hchild : child.Matches a.module o) : Grown ha c₀ (call :: calls) c := by
  refine ⟨h.function, h.state, fun v => ?_, ?_⟩
  · rw [h.weights]
    by_cases hv : v = call
    · subst hv
      rw [if_neg hnot, if_pos List.mem_cons_self, ho, Option.elim_some, addChild,
        Table.getElem?_insert, if_pos rfl, hchild.rootPriority]
    · have hsame : (addChild (a := a) c₀ call child).weights[v]? = c₀.weights[v]? := by
        rw [addChild, Table.getElem?_insert, if_neg hv]
      rw [Std.ExtTreeMap.getD_eq_getD_getElem?, hsame, ← Std.ExtTreeMap.getD_eq_getD_getElem?]
      simp only [List.mem_cons, hv, false_or]
      rfl
  · rw [h.hasCoreWeight, addChild, List.any_cons, ho, Option.any_some, hchild.hasCoreWeight,
      Bool.or_assoc]

end Grown

/-- A context without children that got a child for each of its calls weighs what the plain
definition says. -/
theorem Grown.matches (hm : a.module.Built) {d : Descriptor} {id : Nat}
    (h : Grown ha (.bare a f d r id) (a.module.instructionsOf f) c) :
    (prioritize (a := a) c).Matches a.module (outline ha f d.value r) := by
  have hfun : (outline ha f d.value r).function = f := by rw [outline_eq, Outline.node]
  have hbare : ∀ v, (Context.bare a f d r id).weights[v]? = if v ∈ a.module.instructionsOf f then
      some (d.value.coreWeight a r v) else none :=
    Context.getElem?_ofList_map (hm.nodup_instructionsOf f) _
  have hweights : c.weights = (outline ha f d.value r).weights := by
    refine Std.ExtTreeMap.ext_getElem? fun v => ?_
    rw [h.weights, getElem?_weights_outline ha hm, Std.ExtTreeMap.getD_eq_getD_getElem?, hbare]
    split
    · rw [Outline.weigh]
      change (outlineBelow ha d.value v).elim _ _ = _
      cases outlineBelow ha d.value v <;> rfl
    · rfl
  have hcore : c.hasCoreWeight = (outline ha f d.value r).hasCoreWeight := by
    rw [h.hasCoreWeight, Context.hasCoreWeight_bare, outline_eq, Outline.node, Bool.eq_iff_iff]
    simp only [Bool.or_eq_true, List.any_eq_true, and_or_left, exists_or]
    rfl
  refine ⟨h.function.trans hfun.symm, hweights, ?_, hcore⟩
  rw [prioritize, Outline.priorities, hfun, h.function, hweights]
  rfl

/-! ## Constructions -/

/-- The functions under construction are so related to the function. -/
def Above (s : Session a) (R : FunctionId → FunctionId → Prop) (f : FunctionId) : Prop :=
  ∀ key, s.inProgress.contains key = true → R key.function f

theorem Above.of_eq {R : FunctionId → FunctionId → Prop} (h : s.Above R f)
    (hmarks : ∀ key, s'.inProgress.contains key = s.inProgress.contains key) : s'.Above R f :=
  fun key hkey => h key (hmarks key ▸ hkey)

/-- The context weighs what the plain definition says, or the calls added what it says, if no
function under construction is reached by calls from below. -/
def Task.Outlines (ha : a.module.Acyclic) (requests : List (ContextKey × Bool)) (s : Session a)
    (c : Context) (s' : Session a) : Task → Prop
  | .context f state r => Asked a requests ⟨f, state.value⟩ r →
    s.Above (Relation.TransGen a.module.Calls) f →
    s'.Outlined ha requests ∧ c.Matches a.module (outline ha f state.value r)
  | .children c₀ calls => ∀ r, Asked a requests ⟨c₀.function, c₀.state.value⟩ r →
    s.Above (Relation.ReflTransGen a.module.Calls) c₀.function → calls.Nodup →
    calls ⊆ a.module.instructionsOf c₀.function →
    s'.Outlined ha requests ∧ Grown ha c₀ calls c

/-- The ways contexts come about agree with the plain definition. -/
theorem Performs.outlines (hm : a.module.Built) (hagree : Agree a requests) {t : Task}
    (h : Performs t s c s') (hs : s.Outlined ha requests) : t.Outlines ha requests s c s' := by
  induction h with
  | found hintern hlookup =>
    intro hasked _
    have hs₁ := hs.intern hintern
    rw [← hs.interns.value_eq hintern] at hasked ⊢
    exact ⟨hs₁.aside (lookup_aside hlookup), hs₁.matches hagree (lookup_cases hlookup).1 hasked⟩
  | @built f state entry r bare grown c s s₁ s₂ s₃ s₄ s₅ s₆ s₇ hintern hlookup hbegin hbare _
      hfinish hinsert ih =>
    intro hasked habove
    rw [← hs.interns.value_eq hintern] at hasked ⊢
    have hs₄ := (hs.intern hintern).aside (start_aside hlookup hbegin hbare)
    have habove₄ : s₄.Above (Relation.ReflTransGen a.module.Calls) f := by
      intro key hkey
      obtain ⟨-, rfl⟩ := begin_cases hbegin
      rw [inProgress_bareContext hbare, Std.HashSet.contains_insert, inProgress_lookup hlookup,
        inProgress_intern hintern, Bool.or_eq_true] at hkey
      rcases hkey with hkey | hkey
      · rw [← beq_iff_eq.mp hkey]
      · exact (habove key hkey).to_reflTransGen
    obtain ⟨hbare', -⟩ := bareContext_cases hbare
    generalize bare.id = id at hbare'
    subst hbare'
    obtain ⟨hs₅, hgrown⟩ := ih hs₄ r hasked habove₄ (hm.nodup_instructionsOf f)
      (List.Subset.refl _)
    have hkey : (⟨grown.function, grown.state.value⟩ : ContextKey) = ⟨f, entry.value⟩ := by
      rw [hgrown.function, hgrown.state]
      rfl
    have hmatches := hgrown.matches hm
    obtain ⟨hfun, hfacts⟩ := ContextKey.mk.inj hkey
    rw [← hfun, ← hfacts] at hmatches hasked ⊢
    obtain ⟨hs₇, hfiled⟩ := Outlined.insert (c := prioritize (a := a) grown)
      (hs₅.aside (finish_aside hfinish)) hasked hmatches hinsert
    exact ⟨hs₇, hs₇.matches hagree hfiled hasked⟩
  | none => exact fun r _ _ _ _ => ⟨hs, .nil⟩
  | skip hcall _ ih =>
    intro r hasked habove hnodup hcalls
    obtain ⟨hs', hgrown⟩ := ih hs r hasked habove hnodup.of_cons (List.cons_subset.mp hcalls).2
    exact ⟨hs', hgrown.skip hcall⟩
  | recursive hcallee hcall hintern hmarked _ _ =>
    intro r _ habove _ hcalls
    -- The callee would lead to the function that calls it.
    rw [inProgress_intern hintern, doCall_quiet.inProgress hcall] at hmarked
    have hcalled := Module.calls_iff.mpr ⟨_, hcalls List.mem_cons_self, hcallee⟩
    exact absurd (Relation.TransGen.tail' (habove _ hmarked) hcalled) (ha _)
  | @child c₀ child c' call calls callee d state r s s₁ s₂ s₃ s₄ s' hcallee hcall hintern _ hmay
      hperforms _ ihchild ih =>
    intro r₀ hasked habove hnodup hcalls
    obtain ⟨hnot, hnodup⟩ := List.nodup_cons.mp hnodup
    obtain ⟨hmem, hcalls⟩ := List.cons_subset.mp hcalls
    have hs₁ := hs.aside (doCall_quiet.aside hcall)
    have hvalue : state.value = c₀.state.value.onEntry a call callee :=
      (hs₁.interns.value_eq hintern).trans (doCall_quiet.run hcall).2
    have hflag : r = c₀.state.value.mayPoint a call := (mayPoint_quiet.run hmay).2
    have hmarks : s₃.inProgress = s.inProgress := by
      rw [mayPoint_quiet.inProgress hmay, inProgress_intern hintern, doCall_quiet.inProgress hcall]
    have habove₃ : s₃.Above (Relation.TransGen a.module.Calls) callee := fun key hkey =>
      .tail' (habove key (hmarks ▸ hkey)) (Module.calls_iff.mpr ⟨_, hmem, hcallee⟩)
    obtain ⟨hs₄, hmatches⟩ := ihchild ((hs₁.intern hintern).aside (mayPoint_quiet.aside hmay))
      (hvalue ▸ hflag ▸ hasked.nested hmem hcallee) habove₃
    have habove₄ := habove.of_eq fun key => by rw [hperforms.marks, hmarks]
    obtain ⟨hs', hgrown⟩ := ih hs₄ r₀ hasked habove₄ hnodup hcalls
    refine ⟨hs', hgrown.child hnot ?_ hmatches⟩
    rw [outlineBelow, hcallee, Option.map_some, hvalue, hflag]

theorem Idle.above {R : FunctionId → FunctionId → Prop} (hidle : s.Idle) : s.Above R f :=
  fun key hkey => absurd hkey (Bool.eq_false_iff.mp (hidle key))

/-- What is asked for between operations weighs what the plain definition says. -/
theorem Outlined.construct (hm : a.module.Built) (hs : s.Outlined ha requests) (hidle : s.Idle)
    (hagree : Agree a requests) {d : Descriptor} (hasked : (⟨f, d.value⟩, r) ∈ requests) :
    (construct f d r s).2.Outlined ha requests ∧ (Session.construct f d r s).2.Idle ∧
      (Session.construct f d r s).1.Matches a.module (outline ha f d.value r) := by
  have hperforms := construct_performs (f := f) hs.interns (hidle ⟨f, d.value⟩) r
  obtain ⟨hs', hmatches⟩ := hperforms.outlines hm hagree hs (.outright hasked) hidle.above
  exact ⟨hs', fun key => (hperforms.marks key).trans (hidle key), hmatches⟩

theorem Constructions.outlined (ha : a.module.Acyclic) (hm : a.module.Built)
    {asked : List (ContextKey × Bool)} (h : Constructions a requests s) (hagree : Agree a asked)
    (hsub : requests ⊆ asked) :
    s.Outlined ha asked ∧ s.Idle := by
  induction h with
  | empty => exact ⟨⟨fun _ _ hd => by simp at hd, fun _ _ hc => by simp at hc⟩, .empty⟩
  | @construct requests s s' f d r c _ hrun ih =>
    obtain ⟨hmem, hsub⟩ := List.cons_subset.mp hsub
    obtain ⟨hs, hidle⟩ := ih hsub
    rw [CheckedM.construct, onFunction_run] at hrun
    split at hrun
    · obtain ⟨hs', hidle', -⟩ := hs.construct hm hidle hagree hmem
      rw [Except.ok.inj hrun] at hs' hidle'
      exact ⟨hs', hidle'⟩
    · cases hrun
  | quiet _ hquiet ih =>
    obtain ⟨hs, hidle⟩ := ih hsub
    exact ⟨hs.aside (hquiet.aside rfl), fun key =>
      (congrArg (·.contains key) (hquiet.inProgress rfl)).trans (hidle key)⟩
  | intern d _ ih =>
    obtain ⟨hs, hidle⟩ := ih hsub
    exact ⟨hs.intern rfl, fun key =>
      (congrArg (·.contains key) (inProgress_intern rfl)).trans (hidle key)⟩

/-- Where no function comes back to itself by calls, and everything is always asked for with
the same flag, a construction gives the plain weights and priorities, whatever was
constructed before. -/
theorem construct_eq_outline {l : Listing} (hl : l.build = .ok a.module) (ha : a.module.Acyclic)
    (h : Constructions a requests s) {d : Descriptor}
    (hagree : Agree a ((⟨f, d.value⟩, r) :: requests))
    (hf : (a.module.function? f).isSome = true) :
    ∃ c s', CheckedM.construct f d r s = .ok (c, s') ∧
      c.weights = (outline ha f d.value r).weights ∧
      c.priorities = (outline ha f d.value r).priorities a.module := by
  have hm := Listing.build_built hl
  obtain ⟨hs, hidle⟩ := h.outlined ha hm hagree (List.subset_cons_self _ _)
  obtain ⟨-, -, hmatches⟩ := hs.construct hm hidle hagree List.mem_cons_self
  exact ⟨_, _, (onFunction_run f _ s).trans (if_pos hf), hmatches.weights, hmatches.priorities⟩

/-- Where one call leads to a function without calls, only one flag is passed for either if
the caller is always asked for with one. -/
theorem agree_of_leaf {requests : List (ContextKey × Bool)} {f g : FunctionId} {d : Facts}
    {call : ValueId} (hne : f ≠ g) (hrequests : ∀ e ∈ requests, e = (⟨f, d⟩, r))
    (hcaller : ∀ v ∈ a.module.instructionsOf f, ∀ k, a.module.calledFunction? v = some k →
      v = call ∧ k = g)
    (hleaf : ∀ v ∈ a.module.instructionsOf g, a.module.calledFunction? v = none) :
    Agree a requests := by
  have hasked : ∀ key r', Asked a requests key r' → key = ⟨f, d⟩ ∧ r' = r ∨
      key = ⟨g, d.onEntry a call g⟩ ∧ r' = d.mayPoint a call := by
    intro key r' h
    induction h with
    | outright hmem => exact .inl (Prod.mk.inj (hrequests _ hmem))
    | nested _ hv hk ih =>
      obtain ⟨hcalled, -⟩ := Option.filter_eq_some_iff.mp hk
      rcases ih with ⟨rfl, -⟩ | ⟨rfl, -⟩
      · obtain ⟨rfl, rfl⟩ := hcaller _ hv _ hcalled
        exact .inr ⟨rfl, rfl⟩
      · rw [hleaf _ hv] at hcalled
        cases hcalled
  intro key r₁ r₂ h₁ h₂
  rcases hasked key r₁ h₁ with ⟨hkey₁, rfl⟩ | ⟨hkey₁, rfl⟩ <;>
    rcases hasked key r₂ h₂ with ⟨hkey₂, rfl⟩ | ⟨hkey₂, rfl⟩
  · rfl
  · exact absurd (congrArg ContextKey.function (hkey₁.symm.trans hkey₂)) hne
  · exact absurd (congrArg ContextKey.function (hkey₂.symm.trans hkey₁)) hne
  · rfl

/-- A function is asked for with weight, twice: the second time its context is found, and
its return weighs what the plain definition says. -/
theorem construct_eq_outline_directCall : ∃ m, directCall.build = .ok m ∧ ∀ pointsTo,
    ∀ d : Descriptor, ∃ (s s' : Session ⟨m, pointsTo⟩) (c : Context),
      Constructions ⟨m, pointsTo⟩ [(⟨⟨1⟩, d.value⟩, true)] s ∧
      CheckedM.construct ⟨1⟩ d true s = .ok (c, s') ∧ c.weights[(⟨4⟩ : ValueId)]? = some 1 := by
  obtain ⟨m, hl, hmain, hedges, hmem, hcaller, hleaf, hop⟩ :=
    Listing.exists_build (l := directCall)
      (p := fun m => (m.function? ⟨1⟩).isSome ∧ (∀ e ∈ m.callGraphEdges, e.2.index < e.1.index) ∧
        ⟨4⟩ ∈ m.instructionsOf ⟨1⟩ ∧
        (∀ v ∈ m.instructionsOf ⟨1⟩, ∀ k ∈ m.calledFunction? v, v = ⟨3⟩ ∧ k = ⟨0⟩) ∧
        (∀ v ∈ m.instructionsOf ⟨0⟩, m.calledFunction? v = none) ∧
        m.operation? ⟨4⟩ = some (.ret none))
      (by decide +kernel)
  refine ⟨m, hl, fun pointsTo d => ?_⟩
  have ha : m.Acyclic := Module.acyclic_of_lt hedges
  have hreturn : m.calledFunction? ⟨4⟩ = none := by rw [Module.calledFunction?, hop]
  have hagree : ∀ requests, (∀ e ∈ requests, e = (⟨⟨1⟩, d.value⟩, true)) →
      Agree ⟨m, pointsTo⟩ requests := fun _ hrequests =>
    agree_of_leaf (by decide) hrequests hcaller hleaf
  obtain ⟨c₀, s, hrun, -⟩ := construct_eq_outline (a := ⟨m, pointsTo⟩) (f := ⟨1⟩) (d := d)
    (r := true) hl ha .empty (hagree _ (by simp)) hmain
  have hhistory := Constructions.empty.construct hrun
  obtain ⟨c, s', hrun', hweights, -⟩ := construct_eq_outline (a := ⟨m, pointsTo⟩) (f := ⟨1⟩)
    (d := d) (r := true) hl ha hhistory (hagree _ (by simp)) hmain
  refine ⟨s, s', c, hhistory, hrun', ?_⟩
  have hbelow : outlineBelow (a := ⟨m, pointsTo⟩) ha d.value ⟨4⟩ = none := by
    rw [outlineBelow, hreturn]
    rfl
  have hweight := getElem?_weights_outline (a := ⟨m, pointsTo⟩) (f := ⟨1⟩) (d := d.value)
    (r := true) ha (Listing.build_built hl) ⟨4⟩
  rw [if_pos hmem, hbelow, Facts.coreWeight, hop] at hweight
  exact hweights ▸ hweight

end Session

end PmemPaths.Nvm
