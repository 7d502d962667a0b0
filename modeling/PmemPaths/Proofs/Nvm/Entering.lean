import PmemPaths.Proofs.Nvm.CallStack
import PmemPaths.Proofs.Nvm.InSync
import PmemPaths.Proofs.Nvm.Keeping

/-!
# Calls that enter a context of no child

A call enters the child that its context has for it, if that is of the function the step
goes to.  A context need not have one: a recursive call gets none when its context is
constructed, a call through a pointer gets one when it is resolved, and may go to another
function then.  The step constructs a context for such a call and enters it, and leaves the
context of the caller as it is.  So the entered context is no child of the caller's, and
its priority does not count at the call (`Run.entersCall`, `Run.entersCall_leavesCaller`).

The caller's context gets the child with the first context that takes the place of the
entered one.
-/

namespace PmemPaths.Nvm

open PmemPaths.Ir

variable {a : Analysis}

/-- The innermost waiting context has the active one as the child of its call, and the
weight of the call counts it. -/
def DynamicHeuristic.Installed (m : Module) (h : DynamicHeuristic) : Prop :=
  ∀ w ∈ h.callers.head?, w.context.child? w.call = some h.top ∧ w.Current m h.top

/-- The event tells the thread something, and does not move it. -/
def Event.Learns : Event → Prop
  | .learn _ _ | .learnCallee _ _ => True
  | .step _ _ => False

/-- Either it is new that a call allocates persistent memory, or that it does not. -/
theorem Facts.exists_update_ne {m : Module} (d : Facts) {v : ValueId} (hcall : m.isCall v = true) :
    ∃ isNvm, d.update m v isNvm ≠ d := by
  have hallocs (isNvm : Bool) : (d.update m v isNvm).allocs = Facts.put d.allocs v isNvm :=
    if_pos hcall
  by_cases hv : v ∈ d.allocs
  · refine ⟨false, fun heq => ?_⟩
    rw [← heq, hallocs] at hv
    simp [Facts.put] at hv
  · refine ⟨true, fun heq => hv ?_⟩
    rw [← heq, hallocs]
    simp [Facts.put]

namespace Session

variable {K : Set Context} {s s' : Session a} {h h' : DynamicHeuristic} {c child : Context}
  {pc next : ValueId}

/-! ## Steps that enter a context -/

/-- The context that a call enters is the child, if there is one of its function. -/
theorem child?_of_nextContext (hm : a.module.Built) (hs : s.Sound K) (hidle : s.Idle) (hc : c ∈ K)
    (hexists : (Event.step pc next).Exists a.module)
    (hrun : nextContext c pc next s = (.enter child, s'))
    (hcallee : c.callee? pc = some child.function) : c.child? pc = some child := by
  obtain ⟨K', -, hturn⟩ := nextContext_makes hm hs hidle hc hexists
  rw [hrun] at hturn
  cases hturn with
  | enter hcall hi hfirst _ hfun =>
    obtain ⟨known, hknown, hfun'⟩ := Option.map_eq_some_iff.mp hcallee
    have henter := nextContext_of_child hcall hi hfirst hknown (hfun'.trans hfun) s
    rw [hrun] at henter
    cases henter
    exact hknown

/-- A step that makes the stack deeper puts the context of the caller on it as it is. -/
theorem stepDynamic_of_deeper (hm : a.module.Built) (hs : s.Sound K) (hidle : s.Idle)
    (hh : h.Within K) (hexists : (Event.step pc next).Exists a.module)
    (hrun : stepDynamic h pc next s = (h', s')) (hdeeper : h.depth < h'.depth) :
    h'.callers = ⟨h.top, pc⟩ :: h.callers ∧
      (h.top.callee? pc = some h'.top.function → h.top.child? pc = some h'.top) := by
  obtain ⟨K₁, -, hturn⟩ := nextContext_makes hm hs hidle hh.top hexists
  obtain ⟨K₂, -, -, hturns, -⟩ := stepDynamic_makes hm hs hidle hh hexists
  rw [hrun] at hturns
  rw [stepDynamic, bind_run] at hrun
  generalize hgo : nextContext h.top pc next s = r at hrun hturn
  obtain ⟨turn, s₁⟩ := r
  cases turn with
  | same =>
    cases hrun
    exact absurd hdeeper (Nat.lt_irrefl _)
  | enter child =>
    cases hrun
    exact ⟨rfl, child?_of_nextContext hm hs hidle hh.top hexists hgo⟩
  | leave =>
    cases hturn with
    | leave hreturn =>
      have hle := hturns.depth_le hreturn
      rw [h'.depth_position, h.depth_position] at hle
      exact absurd hdeeper (Nat.not_lt.mpr hle)

/-- The entered context is installed exactly if there was a child of its function. -/
theorem installed_iff_of_deeper (hm : a.module.Built) (hs : s.Sound K) (hidle : s.Idle)
    (hh : h.Within K) (hexists : (Event.step pc next).Exists a.module)
    (hrun : stepDynamic h pc next s = (h', s')) (hdeeper : h.depth < h'.depth) :
    h'.Installed a.module ↔ h.top.callee? pc = some h'.top.function := by
  obtain ⟨hcallers, hchild⟩ := stepDynamic_of_deeper hm hs hidle hh hexists hrun hdeeper
  constructor
  · intro hinstalled
    obtain ⟨hchild', -⟩ := hinstalled ⟨h.top, pc⟩ (by rw [hcallers]; rfl)
    rw [Context.callee?, hchild', Option.map_some]
  · intro hcallee w hw
    rw [hcallers] at hw
    cases hw
    exact ⟨hchild hcallee, hs.current hh.top (hchild hcallee)⟩

/-! ## Contexts that take the place of the entered one -/

/-- What is propagated becomes the child of the innermost waiting context. -/
theorem propagate_installs (hs : s.Sound K) (hchild : child ∈ K) (callers : List Suspended)
    (hcallers : ∀ w ∈ callers, w.context ∈ K) :
    ∀ w ∈ (propagate child callers s).1.head?, w.context.child? w.call = some child := by
  cases callers with
  | nil => exact fun w hw => nomatch hw
  | cons w rest =>
    have hw := hcallers w List.mem_cons_self
    rw [propagate]
    split
    · next hinstalled =>
      obtain ⟨known, hknown, hid⟩ := (Option.any_eq_true _ _).mp hinstalled
      have heq : known = child :=
        hs.id_inj _ (hs.child _ hw _ _ hknown) _ hchild (of_decide_eq_true hid)
      rintro _ ⟨⟩
      exact heq ▸ hknown
    · rw [bind_run, withChild_run]
      dsimp only
      split
      · rintro _ ⟨⟩
        simp
      · rintro _ ⟨⟩
        simp

/-- Another active context is installed at once. -/
theorem replaceTop_installs (hs : s.Sound K) (hc : c ∈ K) (hfun : c.function = h.top.function)
    (hcallers : ∀ w ∈ h.callers, w.context ∈ K) : (replaceTop h c s).1.Installed a.module := by
  obtain ⟨K', ha, hwithin, -, htop, -⟩ := replaceTop_makes hs hc hfun hcallers
  intro w hw
  have hchild : w.context.child? w.call = some (replaceTop h c s).1.top := by
    rw [htop]
    exact propagate_installs hs hc h.callers hcallers w hw
  exact ⟨hchild, ha.sound.current (hwithin.callers w (List.mem_of_mem_head? hw)) hchild⟩

theorem adopt_installs (hs : s.Sound K) (hh : h.Within K) (hc : c ∈ K)
    (hfun : c.function = h.top.function) (hnew : (adopt h c s).1.top.id ≠ h.top.id) :
    (adopt h c s).1.Installed a.module := by
  rw [adopt] at hnew ⊢
  split at hnew
  · exact absurd rfl hnew
  · next hid =>
    rw [if_neg hid]
    exact replaceTop_installs hs hc hfun hh.callers

/-- What is learned about the active context leads to one that is installed. -/
theorem act_installs (hm : a.module.Built) (hs : s.Sound K) (hidle : s.Idle) (hh : h.Within K)
    {e : Event} (he : e.Learns) (hnew : (act h e s).1.top.id ≠ h.top.id) :
    (act h e s).1.Installed a.module := by
  cases e with
  | learn pc isNvm =>
    rw [act, learn] at hnew ⊢
    cases hv : DynamicHeuristic.eventValue? a.module pc with
    | none =>
      rw [hv] at hnew
      exact absurd rfl hnew
    | some v =>
      rw [hv] at hnew
      obtain ⟨K', ha, hmade⟩ := updateContext_makes hm hs hidle hh.top v isNvm
      exact adopt_installs ha.sound (hh.mono ha.made) hmade.mem hmade.function hnew
  | learnCallee pc callee =>
    obtain ⟨K', ha, hmade, -⟩ := resolveCall_makes hm hs hidle hh.top pc callee
    exact adopt_installs ha.sound (hh.mono ha.made) hmade.mem hmade.function hnew
  | step pc next => exact absurd he id

/-- A thread that learns something new about a value has another active context then. -/
theorem learn_id_ne (hm : a.module.Built) (hs : s.Sound K) (hidle : s.Idle) (hh : h.Within K)
    {v : ValueId} {isNvm : Bool} (hv : DynamicHeuristic.eventValue? a.module pc = some v)
    (hnew : h.top.state.value.update a.module v isNvm ≠ h.top.state.value) :
    (learn h pc isNvm s).1.top.id ≠ h.top.id := by
  obtain ⟨K₁, ha, hmade⟩ := updateContext_makes hm hs hidle hh.top v isNvm
  have hh₁ := hh.mono ha.made
  obtain ⟨K₂, -, -, htop⟩ := adopt_makes ha.sound hh₁ hmade.mem hmade.function
  rw [learn, hv]
  dsimp only
  rw [bind_run, htop]
  intro hid
  have hsame := ha.sound.id_inj _ hmade.mem _ hh₁.top hid
  exact hnew (hsame ▸ hmade.facts).symm

/-! ## Recursive calls -/

/-- A function that calls itself with what it knows on entry has no child at the call. -/
theorem child?_construct_eq_none {f : FunctionId} {d : Descriptor} (hs : s.Ordered)
    (hidle : s.Idle) (hcalled : a.module.calledFunction? pc = some f)
    (hentry : d.value.onEntry a pc f = d.value) (r : Bool) :
    (construct f d r s).1.child? pc = none := by
  have hknown : Known Set.univ s d := .inl trivial
  obtain ⟨D, hl, hfiled⟩ := construct_keeps (f := f) hs hidle hknown r
  rw [Option.eq_none_iff_forall_not_mem]
  intro child hchild
  obtain ⟨-, callee, hcallee, -, hbelow⟩ := (hl.ordered.filed _ _ hfiled).child pc child hchild
  rw [hcalled] at hcallee
  cases hcallee
  -- The child would be the context itself.
  rw [hentry, hfiled] at hbelow
  have hlt := Context.sizeOf_child_lt hchild
  rw [Option.some.inj hbelow] at hlt
  exact absurd hlt (Nat.lt_irrefl _)

end Session

/-- A function that calls itself, and fences when the call returns. -/
def fencedRecursion : Listing where
  name := "m"
  items := [.declare "sfence" [] false, .declare "f" [] false,
    .define ⟨1⟩ [.instruction "r" (.call (.direct ⟨1⟩) []),
      .instruction "" (.call (.direct ⟨0⟩) []), .ret none]]

/-- The thread starts in the function and enters it again, while the context that calls has
no child at the call. -/
theorem exists_recursiveStep : ∃ m, fencedRecursion.build = .ok m ∧ m.isCall ⟨2⟩ = true ∧
    DynamicHeuristic.eventValue? m ⟨2⟩ = some ⟨2⟩ ∧ ∀ pointsTo, ∃ h s h' s',
      Run ⟨m, pointsTo⟩ StartsAt (fun _ e => e.Follows m) [(h, ⟨⟨1⟩, ⟨2⟩, []⟩)] s ∧
      Event.Follows m (.step ⟨2⟩ ⟨2⟩) ⟨⟨1⟩, ⟨2⟩, []⟩ ⟨⟨1⟩, ⟨2⟩, [(⟨1⟩, ⟨2⟩)]⟩ ∧
      (Heuristic.dynamic h).take (.step ⟨2⟩ ⟨2⟩) s = .ok (.dynamic h', s') ∧
      h'.callers = ⟨h.top, ⟨2⟩⟩ :: h.callers ∧ h.top.child? ⟨2⟩ = none := by
  obtain ⟨m, hl, hn, hdef, hcall, hcalled, hfirst, hpassed, hvalue⟩ := Listing.exists_build
    (l := fencedRecursion)
    (p := fun m => m.NamesFunctions ∧ m.isDefined ⟨1⟩ ∧ m.isCall ⟨2⟩ ∧
      m.calledFunction? ⟨2⟩ = some ⟨1⟩ ∧ m.firstInstruction? ⟨1⟩ = some ⟨2⟩ ∧
      Facts.passed m ⟨2⟩ ⟨1⟩ = [] ∧ DynamicHeuristic.eventValue? m ⟨2⟩ = some ⟨2⟩)
    (by decide +kernel)
  have hm := Listing.build_built hl
  refine ⟨m, hl, hcall, hvalue, fun pointsTo => ?_⟩
  obtain ⟨first, -, hcreate⟩ :=
    Session.create_dynamic (a := ⟨m, pointsTo⟩) hm (p := dynamicFactory) rfl hdef {}
  -- The call passes nothing, so it asks for the context that is under construction.
  have hentry : dynamicFactory.initial.value.onEntry ⟨m, pointsTo⟩ ⟨2⟩ ⟨1⟩ =
      dynamicFactory.initial.value := by
    rw [Facts.onEntry, if_pos hcall, hpassed]
    rfl
  have hnone := Session.child?_construct_eq_none (a := ⟨m, pointsTo⟩) .empty .empty hcalled hentry
    false
  have hstart : Run ⟨m, pointsTo⟩ StartsAt (fun _ e => e.Follows m) [(_, ⟨⟨1⟩, ⟨2⟩, []⟩)] _ :=
    .create dynamicFactory ⟨1⟩ ⟨2⟩ .empty hcreate hfirst rfl
  have hfollows : Event.Follows m (.step ⟨2⟩ ⟨2⟩) ⟨⟨1⟩, ⟨2⟩, []⟩ ⟨⟨1⟩, ⟨2⟩, [(⟨1⟩, ⟨2⟩)]⟩ :=
    .enter (p := ⟨⟨1⟩, ⟨2⟩, []⟩) hcall (fun g hg => Option.some.inj (hg.symm.trans hcalled)) hdef
      hfirst
  obtain ⟨K, hsound, hidle, hall⟩ := hstart.positions hm hn
  obtain ⟨hwithin, hposition, hvalid⟩ := hall _ _ List.mem_cons_self
  have hexists := hfollows.exists_functions hm hn hvalid
  obtain ⟨K', -, houtcome⟩ := Session.act_makes hm hsound hidle hwithin hexists
  have hposition' := Event.Follows.position_eq (hposition ▸ hfollows) hm hn (hposition ▸ hvalid)
    houtcome
  refine ⟨_, _, _, _, hstart, hfollows, Session.take_dynamic hexists _ _, ?_, hnone⟩
  refine (Session.stepDynamic_of_deeper hm hsound hidle hwithin hexists rfl ?_).1
  rw [← DynamicHeuristic.depth_position, ← DynamicHeuristic.depth_position]
  exact hposition' ▸ hposition ▸ Nat.lt_succ_self 1

/-! ## Runs -/

section Runs

variable {σ : Type} {starts : FunctionId → ValueId → σ → Prop}
  {goes : DynamicHeuristic → Event → σ → σ → Prop} {l : Listing}
  {hs : List (DynamicHeuristic × σ)} {s s' : Session a} {h h' : DynamicHeuristic} {note : σ}
  {pc next : ValueId}

/-- A step that enters a context leaves the caller's context as it is.  That one has the
entered context as the child of the call exactly if it had a child of the entered function
before.  If it had none, it gets one when something is learned that replaces the entered
context. -/
theorem Run.entersCall (hl : l.build = .ok a.module) (hrun : Run a starts goes hs s)
    (hmem : (h, note) ∈ hs)
    (htake : (Heuristic.dynamic h).take (.step pc next) s = .ok (.dynamic h', s'))
    (hdeeper : h.depth < h'.depth) :
    h'.callers = ⟨h.top, pc⟩ :: h.callers ∧
    (h'.Installed a.module ↔ h.top.callee? pc = some h'.top.function) ∧
    ∀ e : Event, e.Learns → ∀ h'' s'',
      (Heuristic.dynamic h').take e s' = .ok (.dynamic h'', s'') →
      h''.top.id ≠ h'.top.id → h''.position = h'.position ∧ h''.Installed a.module := by
  have hm := Listing.build_built hl
  obtain ⟨K, hsound, hidle, hall⟩ := hrun.within hm
  have hwithin := hall _ hmem
  have hexists := Session.exists_of_take htake
  obtain ⟨K', ha, houtcome⟩ := Session.act_makes hm hsound hidle hwithin hexists
  rw [Session.take_dynamic hexists] at htake
  generalize hact : Session.act h (.step pc next) s = r at htake ha houtcome
  obtain ⟨h₁, s₁⟩ := r
  cases htake
  refine ⟨(Session.stepDynamic_of_deeper hm hsound hidle hwithin hexists hact hdeeper).1,
    Session.installed_iff_of_deeper hm hsound hidle hwithin hexists hact hdeeper,
    fun e he h'' s'' htake' hnew => ?_⟩
  have hexists' := Session.exists_of_take htake'
  obtain ⟨K'', -, houtcome'⟩ :=
    Session.act_makes hm ha.sound (ha.idle hidle) houtcome.within hexists'
  rw [Session.take_dynamic hexists'] at htake'
  cases htake'
  refine ⟨?_, Session.act_installs hm ha.sound (ha.idle hidle) houtcome.within he hnew⟩
  cases e with
  | learn pc isNvm => exact houtcome'.position
  | learnCallee pc callee => exact houtcome'.1.position
  | step pc next => exact absurd he id

end Runs

/-- The context that calls gets its child when something new is learned in the one entered
from it. -/
theorem Run.entersCall_fencedRecursion : ∃ m, fencedRecursion.build = .ok m ∧ ∀ pointsTo,
    ∃ h hs s h' s', Run ⟨m, pointsTo⟩ StartsAt (fun _ e => e.Follows m) hs s ∧
      (h, ⟨⟨1⟩, ⟨2⟩, []⟩) ∈ hs ∧
      (Heuristic.dynamic h).take (.step ⟨2⟩ ⟨2⟩) s = .ok (.dynamic h', s') ∧
      h.depth < h'.depth ∧ (h'.Installed m ↔ h.top.callee? ⟨2⟩ = some h'.top.function) ∧
      ∃ isNvm h'' s'', (Heuristic.dynamic h').take (.learn ⟨2⟩ isNvm) s' = .ok (.dynamic h'', s'') ∧
        h''.Installed m := by
  obtain ⟨m, hl, hcall, hvalue, hstep⟩ := exists_recursiveStep
  refine ⟨m, hl, fun pointsTo => ?_⟩
  obtain ⟨h, s, h', s', hrun, hfollows, htake, hcallers, -⟩ := hstep pointsTo
  have hdeeper : h.depth < h'.depth := by simp [DynamicHeuristic.depth, hcallers]
  obtain ⟨-, hinstalled, hlearns⟩ :=
    Run.entersCall (a := ⟨m, pointsTo⟩) hl hrun List.mem_cons_self htake hdeeper
  refine ⟨h, _, s, h', s', hrun, List.mem_cons_self, htake, hdeeper, hinstalled, ?_⟩
  have hm := Listing.build_built hl
  obtain ⟨K, hsound, hidle, hall⟩ :=
    (hrun.event _ List.mem_cons_self hfollows htake).within (a := ⟨m, pointsTo⟩) hm
  obtain ⟨isNvm, hnew⟩ := Facts.exists_update_ne h'.top.state.value hcall
  have hid := Session.learn_id_ne (a := ⟨m, pointsTo⟩) hm hsound hidle
    (hall _ List.mem_cons_self) hvalue hnew
  exact ⟨isNvm, _, _, rfl, (hlearns (.learn ⟨2⟩ isNvm) trivial _ _ rfl hid).2⟩

/-- The context that calls has no child at the call, before the step and after it. -/
theorem Run.entersCall_leavesCaller : ∃ m, fencedRecursion.build = .ok m ∧ ∀ pointsTo,
    ∃ h s h' s', Run ⟨m, pointsTo⟩ StartsAt (fun _ e => e.Follows m)
        [(h, ⟨⟨1⟩, ⟨2⟩, []⟩)] s ∧
      Event.Follows m (.step ⟨2⟩ ⟨2⟩) ⟨⟨1⟩, ⟨2⟩, []⟩ ⟨⟨1⟩, ⟨2⟩, [(⟨1⟩, ⟨2⟩)]⟩ ∧
      (Heuristic.dynamic h).take (.step ⟨2⟩ ⟨2⟩) s = .ok (.dynamic h', s') ∧
      h.depth < h'.depth ∧
      ∃ w, h'.callers.head? = some w ∧ w.call = ⟨2⟩ ∧ w.context.child? ⟨2⟩ = none := by
  obtain ⟨m, hl, -, -, hstep⟩ := exists_recursiveStep
  refine ⟨m, hl, fun pointsTo => ?_⟩
  obtain ⟨h, s, h', s', hrun, hfollows, htake, hcallers, hnone⟩ := hstep pointsTo
  refine ⟨h, s, h', s', hrun, hfollows, htake, ?_, ⟨h.top, ⟨2⟩⟩, ?_, rfl, hnone⟩
  · simp [DynamicHeuristic.depth, hcallers]
  · rw [hcallers]
    rfl

end PmemPaths.Nvm
