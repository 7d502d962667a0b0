import PmemPaths.Proofs.Nvm.Runs

/-!
# The stack of contexts mirrors the call stack

A thread that follows the program goes to a successor, or with a call into a function
with a body, or with a return behind the call that waits for it (`Event.Follows`).  What
it learns on the way does not move it.

In a module whose instructions all name the function that lists them, the stack of
contexts of such a thread has the functions and the calls of its call stack after every
event, whatever else was learned and whichever contexts were replaced
(`Run.mirrors_callStack`).  The one thing to see is that a step tells entering a function
from going on behind a call, also when the function calls itself: a function is entered
at its first instruction, and what follows a call is never that.
-/

namespace PmemPaths.Ir.Module

variable {m : Module} {f : FunctionId} {v : ValueId} {i : Instruction}

/-- Every instruction names the function that lists it. -/
def NamesFunctions (m : Module) : Prop :=
  ∀ f ∈ m.functionIds, ∀ v ∈ m.instructionsOf f, ∀ i ∈ m.instruction? v, i.function = f

instance (m : Module) : Decidable m.NamesFunctions :=
  inferInstanceAs (Decidable (∀ f ∈ m.functionIds, ∀ v ∈ m.instructionsOf f,
    ∀ i ∈ m.instruction? v, i.function = f))

theorem NamesFunctions.function_eq (h : m.NamesFunctions) (hv : v ∈ m.instructionsOf f)
    (hi : m.instruction? v = some i) : i.function = f := by
  obtain ⟨fn, hf, -⟩ := isDefined_iff.mp (isDefined_of_mem hv)
  exact h f (mem_functionIds.mpr ⟨fn, hf⟩) v hv i hi

end PmemPaths.Ir.Module

namespace PmemPaths.Nvm

open PmemPaths.Ir

variable {a : Analysis} {m : Module}

/-! ## Following the program -/

/-- What the program does to a place with an event. -/
inductive Event.Follows (m : Module) : Event → Position → Position → Prop
  | learn (pc : ValueId) (isNvm : Bool) (p : Position) : Follows m (.learn pc isNvm) p p
  | learnCallee (pc : ValueId) {callee : FunctionId} (p : Position) :
      (m.function? callee).isSome = true → Follows m (.learnCallee pc callee) p p
  /-- An instruction that neither calls nor returns goes to a successor. -/
  | flow {p : Position} {next : ValueId} : m.isCall p.current = false →
      m.isReturn p.current = false → next ∈ m.successors p.current →
      Follows m (.step p.current next) p { p with current := next }
  /-- A call enters the function it names, or any function if it names none. -/
  | enter {p : Position} {f : FunctionId} {next : ValueId} : m.isCall p.current = true →
      (∀ g, m.calledFunction? p.current = some g → g = f) → m.isDefined f = true →
      m.firstInstruction? f = some next →
      Follows m (.step p.current next) p ⟨f, next, (p.function, p.current) :: p.callers⟩
  /-- A call of an external function goes on behind the call. -/
  | external {p : Position} {next : ValueId} : m.isCall p.current = true →
      (∀ g, m.calledFunction? p.current = some g → m.isDefined g = false) →
      next ∈ m.successors p.current →
      Follows m (.step p.current next) p { p with current := next }
  /-- A return goes on behind the call that waits for it. -/
  | leave {p : Position} {f : FunctionId} {call next : ValueId}
      {rest : List (FunctionId × ValueId)} : m.isReturn p.current = true →
      p.callers = (f, call) :: rest → next ∈ m.successors call →
      Follows m (.step p.current next) p ⟨f, next, rest⟩

/-- The current instruction and the waiting calls are in their functions. -/
structure Position.Valid (m : Module) (p : Position) : Prop where
  current : p.current ∈ m.instructionsOf p.function
  callers : ∀ e ∈ p.callers, e.2 ∈ m.instructionsOf e.1

namespace Event.Follows

variable {e : Event} {p p' p'' : Position} {pc next : ValueId}

/-- The program keeps its places in order. -/
theorem valid (h : e.Follows m p p') (hm : m.Built) (hp : p.Valid m) : p'.Valid m := by
  cases h with
  | learn pc isNvm => exact hp
  | learnCallee pc hf => exact hp
  | flow _ _ hnext => exact ⟨hm.successors_subset hp.current hnext, hp.callers⟩
  | enter _ _ _ hfirst =>
    exact ⟨hm.firstInstruction_mem hfirst, List.forall_mem_cons.mpr ⟨hp.current, hp.callers⟩⟩
  | external _ _ hnext => exact ⟨hm.successors_subset hp.current hnext, hp.callers⟩
  | leave _ hcallers hnext =>
    obtain ⟨hcall, hrest⟩ := List.forall_mem_cons.mp (hcallers ▸ hp.callers)
    exact ⟨hm.successors_subset hcall hnext, hrest⟩

/-- The functions that the program goes to exist. -/
theorem exists_functions (h : e.Follows m p p') (hm : m.Built) (hn : m.NamesFunctions)
    (hp : p.Valid m) : e.Exists m := by
  have hp' := h.valid hm hp
  cases e with
  | learn pc isNvm => trivial
  | learnCallee pc callee =>
    cases h with
    | learnCallee _ _ hf => exact hf
  | step pc next =>
    intro _ i hi
    have hcurrent : p'.current = next := by cases h <;> rfl
    rw [hn.function_eq hp'.current (hcurrent ▸ hi)]
    exact Module.isSome_of_isDefined (Module.isDefined_of_mem hp'.current)

/-- A step of the heuristic leads where the step of the program leads. -/
theorem turns_eq (h : Follows m (.step pc next) p p') (hm : m.Built) (hn : m.NamesFunctions)
    (hp : p.Valid m) (hturns : p.Turns m pc next p'') : p'' = p' := by
  have hp' := h.valid hm hp
  cases h with
  | flow hcall hreturn _ => exact hturns.of_plain hcall hreturn
  | enter hcall _ _ hfirst =>
    -- The instruction gone to is the first one of its function.
    obtain ⟨-, i, hi⟩ := Module.mem_instructionsOf.mp hp'.current
    have hfun := hn.function_eq hp'.current hi
    rcases hturns.of_call hcall hi with ⟨-, hne, -⟩ | ⟨-, rfl⟩
    · rw [hfun] at hne
      exact absurd hfirst hne
    · rw [hfun]
  | external hcall _ hnext =>
    -- What follows a call is in its function, and not the first instruction of any.
    obtain ⟨-, i, hi⟩ := Module.mem_instructionsOf.mp hp'.current
    rcases hturns.of_call hcall hi with ⟨-, -, rfl⟩ | ⟨hfirst, -⟩
    · rfl
    · exact absurd (hfirst (hn.function_eq hp'.current hi)) (hm.next_ne_first hcall hnext)
  | leave hreturn hcallers _ =>
    rcases hturns.of_return hreturn with ⟨hnone, -⟩ | ⟨f, call, rest, hcallers', rfl⟩
    · rw [hcallers] at hnone
      cases hnone
    · rw [hcallers, List.cons.injEq, Prod.mk.injEq] at hcallers'
      obtain ⟨⟨rfl, -⟩, rfl⟩ := hcallers'
      rfl

/-- An event leaves the heuristic where it leaves the program. -/
theorem position_eq {K : Set Context} {h h' : DynamicHeuristic} (hf : e.Follows m h.position p')
    (hm : m.Built) (hn : m.NamesFunctions) (hp : h.position.Valid m)
    (ho : e.Outcome m K h h') : h'.position = p' := by
  cases e with
  | learn pc isNvm =>
    cases hf
    exact ho.position
  | learnCallee pc callee =>
    cases hf
    exact ho.1.position
  | step pc next => exact hf.turns_eq hm hn hp ho.2.1

end Event.Follows

/-! ## The priority of the current instruction -/

/-- A thread whose current instruction is in the function of its context has a
priority. -/
theorem DynamicHeuristic.exists_priority {K : Set Context} {s : Session a}
    {h : DynamicHeuristic} (hs : s.Sound K) (hh : h.Within K)
    (hcurrent : h.current ∈ a.module.instructionsOf h.top.function) :
    ∃ n, (Heuristic.dynamic h).priority a.module = .ok n := by
  have hmem := (hs.consistent _ hh.top).mem_priorities hcurrent
  obtain ⟨n, hn⟩ := Option.isSome_iff_exists.mp (Std.ExtTreeMap.mem_iff_isSome_getElem?.mp hmem)
  refine ⟨n, ?_⟩
  rw [Heuristic.priority, DynamicHeuristic.priority, hn]
  rfl

/-! ## Runs that follow the program -/

/-- A thread starts at the first instruction of a function. -/
def StartsAt (entry : FunctionId) (first : ValueId) (p : Position) : Prop :=
  p = ⟨entry, first, []⟩

/-- The contexts of a run that follows the program are where the program is. -/
theorem Run.positions (hm : a.module.Built) (hn : a.module.NamesFunctions)
    {hs : List (DynamicHeuristic × Position)} {s : Session a}
    (hrun : Run a StartsAt (fun _ e => e.Follows a.module) hs s) :
    ∃ K, s.Sound K ∧ s.Idle ∧ ∀ h p, (h, p) ∈ hs →
      h.Within K ∧ h.position = p ∧ p.Valid a.module := by
  obtain ⟨K, hsound, hidle, hall⟩ :=
    hrun.invariant (I := fun h p => h.position = p ∧ p.Valid a.module) hm
      (by
        rintro h entry first p hfirst rfl hposition
        exact ⟨hposition, hm.firstInstruction_mem hfirst, fun e he => nomatch he⟩)
      (by
        rintro K h h' e p p' ⟨rfl, hvalid⟩ hf ho
        exact ⟨hf.position_eq hm hn hvalid ho, hf.valid hm hvalid⟩)
  exact ⟨K, hsound, hidle, fun h p hmem => hall (h, p) hmem⟩

/-- After every event of a run that follows the program, the stack of contexts has the
functions and the calls of the call stack, there is a priority, and every event that
follows the program goes through.  Such runs start in every function with a body. -/
theorem Run.mirrors_callStack {l : Listing} (hl : l.build = .ok a.module)
    (hn : a.module.NamesFunctions) {hs : List (DynamicHeuristic × Position)} {s : Session a}
    (hrun : Run a StartsAt (fun _ e => e.Follows a.module) hs s) :
    (∀ (p : Factory) entry, p.settings.strategy = .dynamic → a.module.isDefined entry = true →
      ∃ h s', p.create entry s = (.ok (.dynamic h), s')) ∧
    ∀ h p, (h, p) ∈ hs → h.position = p ∧ h.depth = p.depth ∧
      (∃ n, (Heuristic.dynamic h).priority a.module = .ok n) ∧
      ∀ e p', e.Follows a.module p p' →
        ∃ h' s', (Heuristic.dynamic h).take e s = .ok (.dynamic h', s') := by
  have hm := Listing.build_built hl
  obtain ⟨K, hsound, -, hall⟩ := hrun.positions hm hn
  refine ⟨fun p entry hp hdef => ?_, fun h p hmem => ?_⟩
  · obtain ⟨first, -, hcreate⟩ := Session.create_dynamic hm hp hdef s
    exact ⟨_, _, hcreate⟩
  · obtain ⟨hwithin, hposition, hvalid⟩ := hall h p hmem
    subst hposition
    exact ⟨rfl, h.depth_position.symm,
      DynamicHeuristic.exists_priority hsound hwithin hvalid.current,
      fun e p' hf => ⟨_, _, Session.take_dynamic (hf.exists_functions hm hn hvalid) h s⟩⟩

/-- A function that calls itself at once. -/
def recursiveCall : Listing where
  name := "m"
  items := [.declare "f" [] false,
    .define ⟨0⟩ [.instruction "r" (.call (.direct ⟨0⟩) []), .ret none]]

/-- The call goes from an instruction to itself, and there are two contexts then. -/
theorem Run.mirrors_callStack_recursiveCall : ∃ m, recursiveCall.build = .ok m ∧
    ∀ pointsTo, ∃ h hs s,
      Run ⟨m, pointsTo⟩ StartsAt (fun _ e => e.Follows m)
        ((h, ⟨⟨0⟩, ⟨1⟩, [(⟨0⟩, ⟨1⟩)]⟩) :: hs) s ∧
      h.position = ⟨⟨0⟩, ⟨1⟩, [(⟨0⟩, ⟨1⟩)]⟩ ∧ h.depth = 2 ∧
      ∃ n, (Heuristic.dynamic h).priority m = .ok n := by
  obtain ⟨m, hl, hn, hdef, hcall, hcalled, hfirst⟩ := Listing.exists_build (l := recursiveCall)
    (p := fun m => m.NamesFunctions ∧ m.isDefined ⟨0⟩ ∧ m.isCall ⟨1⟩ ∧
      m.calledFunction? ⟨1⟩ = some ⟨0⟩ ∧ m.firstInstruction? ⟨0⟩ = some ⟨1⟩)
    (by decide +kernel)
  refine ⟨m, hl, fun pointsTo => ?_⟩
  -- The thread starts in the function, and the call enters it again.
  obtain ⟨hcreate, -⟩ := mirrors_callStack (a := ⟨m, pointsTo⟩) hl hn .empty
  obtain ⟨h, s, hcreate⟩ := hcreate dynamicFactory ⟨0⟩ rfl hdef
  have hstart : Run ⟨m, pointsTo⟩ StartsAt (fun _ e => e.Follows m)
      [(h, ⟨⟨0⟩, ⟨1⟩, []⟩)] s :=
    .create dynamicFactory ⟨0⟩ ⟨1⟩ .empty hcreate hfirst rfl
  have hfollows : Event.Follows m (.step ⟨1⟩ ⟨1⟩) ⟨⟨0⟩, ⟨1⟩, []⟩ ⟨⟨0⟩, ⟨1⟩, [(⟨0⟩, ⟨1⟩)]⟩ :=
    .enter (p := ⟨⟨0⟩, ⟨1⟩, []⟩) hcall (fun g hg => Option.some.inj (hg.symm.trans hcalled)) hdef
      hfirst
  obtain ⟨-, -, -, hgoes⟩ := (mirrors_callStack hl hn hstart).2 h _ List.mem_cons_self
  obtain ⟨h', s', htake⟩ := hgoes _ _ hfollows
  have hrun := hstart.event _ List.mem_cons_self hfollows htake
  obtain ⟨hposition, hdepth, hpriority, -⟩ :=
    (mirrors_callStack hl hn hrun).2 h' _ List.mem_cons_self
  exact ⟨h', _, s', hrun, hposition, hdepth, hpriority⟩

end PmemPaths.Nvm
