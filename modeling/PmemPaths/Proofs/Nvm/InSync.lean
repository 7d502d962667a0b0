import PmemPaths.Proofs.Nvm.Runs

/-!
# Waiting calls weigh what they wait for

In a run whose steps start in the function of the active context, a stack of contexts that
is in sync stays so with everything that is learned, with every return, and with every
step into the child that is installed at the call (`Run.staysInSync`).  No ancestor is left
with the weight of a context that was replaced above it.

What a call weighs by itself, the part of its weight that no child adds, is there what
the call does under the facts of its context.
-/

namespace PmemPaths.Nvm

open PmemPaths.Ir

variable {a : Analysis} {m : Module}

namespace Event

/-- A step starts at an instruction of the function of the active context. -/
def StartsIn (m : Module) (h : DynamicHeuristic) : Event → Prop
  | .learn _ _ | .learnCallee _ _ => True
  | .step pc _ => pc ∈ m.instructionsOf h.top.function

/-- The thread learned something, returned, or entered the child that is installed. -/
def Settles (m : Module) (h h' : DynamicHeuristic) : Event → Prop
  | .learn _ _ | .learnCallee _ _ => True
  | .step pc _ => m.isReturn pc = true ∨ h.top.child? pc = some h'.top

end Event

/-! ## Waiting calls -/

namespace Position

/-- The waiting calls are instructions of the functions that wait. -/
def CallsOwn (m : Module) (p : Position) : Prop := ∀ e ∈ p.callers, e.2 ∈ m.instructionsOf e.1

variable {p p' : Position} {pc next : ValueId}

theorem Turns.callsOwn (h : p.Turns m pc next p') (hpc : pc ∈ m.instructionsOf p.function)
    (hp : p.CallsOwn m) : p'.CallsOwn m := by
  cases h with
  | same => exact hp
  | enter => exact List.forall_mem_cons.mpr ⟨hpc, hp⟩
  | leave _ hcallers =>
    rw [CallsOwn, hcallers] at hp
    exact (List.forall_mem_cons.mp hp).2
  | stay => exact hp

/-- A return does not make the call stack deeper. -/
theorem Turns.depth_le (h : p.Turns m pc next p') (hreturn : m.isReturn pc = true) :
    p'.depth ≤ p.depth := by
  rcases h.of_return hreturn with ⟨-, rfl⟩ | ⟨f, call, rest, hcallers, rfl⟩
  · exact Nat.le_refl _
  · simp [depth, hcallers]

end Position

namespace Event.Outcome

variable {K : Set Context} {h h' : DynamicHeuristic} {e : Event}

theorem callsOwn (ho : e.Outcome m K h h') (hstarts : e.StartsIn m h)
    (hh : h.position.CallsOwn m) : h'.position.CallsOwn m := by
  cases e with
  | learn pc isNvm => exact ho.position ▸ hh
  | learnCallee pc callee => exact ho.1.position ▸ hh
  | step pc next => exact ho.2.1.callsOwn hstarts hh

/-- What is learned, a return, and a step into the installed child leave the stack in
sync. -/
theorem inSync (ho : e.Outcome m K h h') (hh : h.InSync m) (hsettles : e.Settles m h h') :
    h'.InSync m := by
  cases e with
  | learn pc isNvm => exact ho.inSync hh
  | learnCallee pc callee => exact ho.1.inSync hh
  | step pc next =>
    refine ho.2.2 hh fun hdeeper => ?_
    rcases hsettles with hreturn | hinstalled
    · have hle := ho.2.1.depth_le hreturn
      simp only [DynamicHeuristic.depth_position] at hle
      omega
    · exact hinstalled

end Event.Outcome

/-! ## Runs -/

/-- The run takes no note of where its threads are, and its steps start in the function
of the active context. -/
abbrev OwnRun (a : Analysis) : List (DynamicHeuristic × Unit) → Session a → Prop :=
  Run a (fun _ _ _ => True) fun h e _ _ => e.StartsIn a.module h

section Runs

variable {l : Listing} {hs : List (DynamicHeuristic × Unit)} {s : Session a}
  {h : DynamicHeuristic}

theorem OwnRun.callsOwn (hm : a.module.Built) (hrun : OwnRun a hs s) :
    ∃ K, s.Sound K ∧ s.Idle ∧ ∀ x ∈ hs, x.1.Within K ∧ x.1.position.CallsOwn a.module :=
  hrun.invariant (I := fun h _ => h.position.CallsOwn a.module) hm
    (by
      intro h entry first _ _ _ hposition
      rw [hposition]
      exact fun e he => nomatch he)
    fun K h h' e _ _ hh hstarts ho => ho.callsOwn hstarts hh

/-- A thread that learns what a call calls is where it was, and has a child at the call. -/
theorem OwnRun.learnCallee (hm : a.module.Built) (hrun : OwnRun a hs s) (hmem : (h, ()) ∈ hs)
    (pc : ValueId) {callee : FunctionId} (hdef : a.module.isDefined callee = true) :
    ∃ h' s', (Heuristic.dynamic h).take (.learnCallee pc callee) s = .ok (.dynamic h', s') ∧
      h'.position = h.position ∧
      ∃ child, h'.top.child? pc = some child ∧ child.function = callee := by
  obtain ⟨K, hsound, hidle, hall⟩ := hrun.callsOwn hm
  have hexists : (Event.learnCallee pc callee).Exists a.module := Module.isSome_of_isDefined hdef
  obtain ⟨K', -, houtcome⟩ := Session.act_makes hm hsound hidle (hall _ hmem).1 hexists
  exact ⟨_, _, Session.take_dynamic hexists h s, houtcome.1.position, houtcome.2 hdef⟩

/-- In such a run every waiting call weighs by itself what it does under the facts of its
context.  Every event whose functions exist goes through, and leaves a stack in sync that
was in sync, unless it enters another context than the child of the call. -/
theorem Run.staysInSync (hl : l.build = .ok a.module) (hrun : OwnRun a hs s)
    (hmem : (h, ()) ∈ hs) :
    (∀ w ∈ h.callers, w.context.coreWeight w.call =
      w.context.state.value.coreWeight a w.context.returnHasWeight w.call) ∧
    (h.InSync a.module → ∀ e, e.Exists a.module → ∃ h' s',
      (Heuristic.dynamic h).take e s = .ok (.dynamic h', s') ∧
      (e.Settles a.module h h' → h'.InSync a.module)) := by
  have hm := Listing.build_built hl
  obtain ⟨K, hsound, hidle, hall⟩ := hrun.callsOwn hm
  obtain ⟨hwithin, hown⟩ := hall (h, ()) hmem
  refine ⟨fun w hw => ?_, fun hh e hexists => ?_⟩
  · exact (hsound.consistent _ (hwithin.callers w hw)).core _ (hown _ (List.mem_map_of_mem hw))
  · obtain ⟨K', -, houtcome⟩ := Session.act_makes hm hsound hidle hwithin hexists
    exact ⟨_, _, Session.take_dynamic hexists h s, houtcome.inSync hh⟩

end Runs

/-- A call through a pointer to a function that returns. -/
def pointerCall : Listing where
  name := "m"
  items := [.declare "f" [] false, .declare "main" [] false, .define ⟨0⟩ [.ret none],
    .define ⟨1⟩ [.instruction "r" (.call (.indirect ⟨0⟩) []), .ret none]]

/-- The thread learns what the call calls and enters it. -/
theorem Run.staysInSync_pointerCall : ∃ m, pointerCall.build = .ok m ∧ ∀ pointsTo, ∃ h hs s,
    OwnRun ⟨m, pointsTo⟩ ((h, ()) :: hs) s ∧ h.depth = 2 ∧ h.InSync m := by
  obtain ⟨m, hl, hcallee, hmain, hcall, hmem, hnext⟩ := Listing.exists_build (l := pointerCall)
    (p := fun m => m.isDefined ⟨0⟩ ∧ m.isDefined ⟨1⟩ ∧ m.isCall ⟨3⟩ ∧
      ⟨3⟩ ∈ m.instructionsOf ⟨1⟩ ∧ (m.instruction? ⟨2⟩).map (·.function) = some ⟨0⟩)
    (by decide +kernel)
  obtain ⟨i, hi, hfun⟩ := Option.map_eq_some_iff.mp hnext
  have hm := Listing.build_built hl
  refine ⟨m, hl, fun pointsTo => ?_⟩
  -- The thread starts in the function that calls.
  obtain ⟨first, hfirst, hcreate⟩ :=
    Session.create_dynamic (a := ⟨m, pointsTo⟩) hm (p := dynamicFactory) rfl hmain {}
  obtain ⟨-, -, -, hposition⟩ := Session.startDynamic_makes (a := ⟨m, pointsTo⟩) hm
    Session.Sound.empty Session.Idle.empty (Module.isSome_of_isDefined hmain) first
    dynamicFactory.initial
  have hrun : OwnRun ⟨m, pointsTo⟩ [(_, ())] _ :=
    .create dynamicFactory ⟨1⟩ first .empty hcreate hfirst trivial
  -- It learns what the call calls.
  obtain ⟨h, s, htake, hsame, child, hchild, hcalls⟩ :=
    hrun.learnCallee hm List.mem_cons_self ⟨3⟩ hcallee
  have hrun₁ : OwnRun ⟨m, pointsTo⟩ ((h, ()) :: _) s :=
    hrun.event (.learnCallee ⟨3⟩ ⟨0⟩) List.mem_cons_self trivial htake
  rw [hposition, DynamicHeuristic.position, Position.mk.injEq] at hsame
  obtain ⟨htop, -, hcallers⟩ := hsame
  have hsync : h.InSync m := by
    rw [DynamicHeuristic.InSync, List.map_eq_nil_iff.mp hcallers]
    trivial
  -- The call enters the child.
  have hexists : (Event.step ⟨3⟩ ⟨2⟩).Exists m := fun _ j hj => by
    rw [hi] at hj
    cases hj
    exact hfun ▸ Module.isSome_of_isDefined hcallee
  obtain ⟨h', s', htake', hsync'⟩ :=
    (Run.staysInSync hl hrun₁ List.mem_cons_self).2 hsync (.step ⟨3⟩ ⟨2⟩) hexists
  have hown : (Event.step ⟨3⟩ ⟨2⟩).StartsIn m h := by
    rw [Event.StartsIn, htop]
    exact hmem
  have hrun₂ : OwnRun ⟨m, pointsTo⟩ ((h', ()) :: _) s' :=
    hrun₁.event _ List.mem_cons_self hown htake'
  have hother : i.function = h.top.function → m.firstInstruction? i.function = some ⟨2⟩ := by
    rw [hfun, htop]
    intro heq
    cases heq
  rw [Session.take_dynamic hexists, Session.act, Session.stepDynamic_of_child hcall hi hother
    hchild (hcalls.trans hfun.symm)] at htake'
  cases htake'
  refine ⟨_, _, _, hrun₂, ?_, hsync' (.inr hchild)⟩
  rw [DynamicHeuristic.depth, List.length_cons, List.map_eq_nil_iff.mp hcallers]
  rfl

end PmemPaths.Nvm
