import PmemPaths.Nvm.Dynamic
import PmemPaths.Proofs.Nvm.Replacement

/-!
# Threads and their contexts

Each operation of a thread on its stack of contexts is looked at in three ways.  The
contexts it leaves on the stack were made (`DynamicHeuristic.Within`).  The place of the
thread, its functions, its calls and its current instruction, is the same or the one the
step leads to (`DynamicHeuristic.position`).  And a stack whose waiting calls weigh what
the contexts above them start with (`DynamicHeuristic.InSync`) stays such a stack.

The third is up to `Session.propagate`, which stops early in two cases.  Where the child
is installed already, the weight of the call counts it.  Where the call weighs what it
did and the context starts with what it did, the contexts below cannot tell the
difference.
-/

namespace PmemPaths.Nvm

open PmemPaths.Ir

variable {a : Analysis} {m : Module}

/-! ## Places -/

/-- A place in a run of the program: a function, an instruction, and the calls that wait
for the function to return, the innermost first. -/
structure Position where
  /-- The function that runs. -/
  function : FunctionId
  /-- The current instruction. -/
  current : ValueId
  /-- The functions that wait, each with its call. -/
  callers : List (FunctionId × ValueId)
deriving DecidableEq, Repr

namespace Position

/-- How many functions there are on the call stack. -/
def depth (p : Position) : Nat := p.callers.length + 1

/-- What a step does to a place, when the instruction it goes to is in this function. -/
inductive Turns (m : Module) (pc next : ValueId) (p : Position) : Position → Prop
  | same : m.isReturn pc = false →
      (m.isCall pc = true → ∀ i, m.instruction? next = some i →
        i.function = p.function ∧ m.firstInstruction? i.function ≠ some next) →
      Turns m pc next p { p with current := next }
  | enter {i : Instruction} : m.isCall pc = true → m.instruction? next = some i →
      (i.function = p.function → m.firstInstruction? i.function = some next) →
      Turns m pc next p ⟨i.function, next, (p.function, pc) :: p.callers⟩
  | leave {f : FunctionId} {call : ValueId} {rest : List (FunctionId × ValueId)} :
      m.isReturn pc = true → p.callers = (f, call) :: rest → Turns m pc next p ⟨f, next, rest⟩
  | stay : m.isReturn pc = true → p.callers = [] → Turns m pc next p { p with current := next }

namespace Turns

variable {p p' : Position} {pc next : ValueId}

/-- An instruction that neither calls nor returns stays in its function. -/
theorem of_plain (h : p.Turns m pc next p') (hcall : m.isCall pc = false)
    (hreturn : m.isReturn pc = false) : p' = { p with current := next } := by
  cases h with
  | same => rfl
  | enter hcall' => exact absurd hcall' (Bool.eq_false_iff.mp hcall)
  | leave hreturn' => exact absurd hreturn' (Bool.eq_false_iff.mp hreturn)
  | stay => rfl

/-- A call goes on behind itself, or enters the function of the instruction gone to. -/
theorem of_call (h : p.Turns m pc next p') (hcall : m.isCall pc = true) {i : Instruction}
    (hi : m.instruction? next = some i) :
    i.function = p.function ∧ m.firstInstruction? i.function ≠ some next ∧
        p' = { p with current := next } ∨
      (i.function = p.function → m.firstInstruction? i.function = some next) ∧
        p' = ⟨i.function, next, (p.function, pc) :: p.callers⟩ := by
  have hreturn := Bool.eq_false_iff.mp (Module.isReturn_of_isCall hcall)
  cases h with
  | same _ hstay => exact .inl ⟨(hstay hcall i hi).1, (hstay hcall i hi).2, rfl⟩
  | enter _ hj hfirst =>
    rw [hi, Option.some.injEq] at hj
    subst hj
    exact .inr ⟨hfirst, rfl⟩
  | leave hreturn' => exact absurd hreturn' hreturn
  | stay hreturn' => exact absurd hreturn' hreturn

/-- A return goes back to the function that waits, if there is one. -/
theorem of_return (h : p.Turns m pc next p') (hreturn : m.isReturn pc = true) :
    p.callers = [] ∧ p' = { p with current := next } ∨
      ∃ f call rest, p.callers = (f, call) :: rest ∧ p' = ⟨f, next, rest⟩ := by
  cases h with
  | same hnot => exact absurd hreturn (Bool.eq_false_iff.mp hnot)
  | enter hcall => exact absurd hreturn (Bool.eq_false_iff.mp (Module.isReturn_of_isCall hcall))
  | leave _ hcallers => exact .inr ⟨_, _, _, hcallers, rfl⟩
  | stay _ hnone => exact .inl ⟨hnone, rfl⟩

end Turns

end Position

/-- The function and the call of a waiting context. -/
def Suspended.place (w : Suspended) : FunctionId × ValueId := (w.context.function, w.call)

/-- The weight of the call counts what the next context starts with. -/
def Suspended.Current (m : Module) (w : Suspended) (next : Context) : Prop :=
  w.context.weights[w.call]? =
    some (addCapped (w.context.coreWeight w.call) (next.rootPriority m))

/-- Each waiting call counts what the context above it starts with. -/
def CurrentAll (m : Module) : Context → List Suspended → Prop
  | _, [] => True
  | c, w :: rest => w.Current m c ∧ CurrentAll m w.context rest
termination_by structural _ callers => callers

namespace DynamicHeuristic

variable {h h' : DynamicHeuristic} {K K' : Set Context}

/-- Where the contexts say the thread is. -/
def position (h : DynamicHeuristic) : Position :=
  ⟨h.top.function, h.current, h.callers.map Suspended.place⟩

@[simp]
theorem depth_position (h : DynamicHeuristic) : h.position.depth = h.depth := by
  rw [Position.depth, depth, position, List.length_map]

/-- The contexts on the stack are among those made so far. -/
structure Within (K : Set Context) (h : DynamicHeuristic) : Prop where
  top : h.top ∈ K
  callers : ∀ w ∈ h.callers, w.context ∈ K

theorem Within.mono (hw : h.Within K) (hsub : K ⊆ K') : h.Within K' :=
  ⟨hsub hw.top, fun w hmem => hsub (hw.callers w hmem)⟩

/-- Every waiting call weighs what it does itself and what the context above starts
with. -/
def InSync (m : Module) (h : DynamicHeuristic) : Prop := CurrentAll m h.top h.callers

/-- The thread is at the same place, with contexts that were made, and in sync if it
was. -/
structure Keeps (m : Module) (K : Set Context) (h h' : DynamicHeuristic) : Prop where
  within : h'.Within K
  position : h'.position = h.position
  inSync : h.InSync m → h'.InSync m

end DynamicHeuristic

namespace Session

variable {K K' : Set Context} {s s' : Session a} {c child : Context} {call : ValueId}
  {h : DynamicHeuristic}

/-! ## Propagation -/

/-- A call counts what its child starts with. -/
theorem Sound.current (hs : s.Sound K) (hc : c ∈ K) (hchild : c.child? call = some child) :
    Suspended.Current a.module ⟨c, call⟩ child :=
  (hs.consistent c hc).call call child hchild

/-- Propagation leaves a stack in sync, whatever it starts from. -/
theorem propagate_makes (hs : s.Sound K) (callers : List Suspended) (hchild : child ∈ K)
    (hcallers : ∀ w ∈ callers, w.context ∈ K) :
    Makes K s (propagate child callers) fun K' _ callers' =>
      (∀ w ∈ callers', w.context ∈ K') ∧
      callers'.map Suspended.place = callers.map Suspended.place ∧
      ((∀ w rest, callers = w :: rest → CurrentAll a.module w.context rest) →
        CurrentAll a.module child callers') := by
  induction callers generalizing child K s with
  | nil =>
    rw [propagate]
    exact .pure hs ⟨hcallers, rfl, fun _ => trivial⟩
  | cons w rest ih =>
    obtain ⟨hw, hrest⟩ := List.forall_mem_cons.mp hcallers
    rw [propagate]
    split
    · next hinstalled =>
      -- The identity says that the installed child is the very child.
      obtain ⟨installed, hinst, hid⟩ := (Option.any_eq_true _ _).mp hinstalled
      have heq : installed = child :=
        hs.id_inj _ (hs.child _ hw _ _ hinst) _ hchild (of_decide_eq_true hid)
      refine .pure hs ⟨hcallers, rfl, fun hsync => ⟨?_, hsync w rest rfl⟩⟩
      exact hs.current hw (heq ▸ hinst)
    · refine (withChild_makes hs hw hchild w.call).bind fun K₁ s₁ updated ha₁ hupdated => ?_
      obtain ⟨hmem, id, rfl⟩ := hupdated
      have hcurrent : Suspended.Current a.module
          ⟨revise a.module w.context id w.call child, w.call⟩ child :=
        ha₁.sound.current hmem (by simp)
      dsimp only
      split
      · next hsettled =>
        refine .pure ha₁.sound ⟨?_, rfl, fun hsync => ⟨hcurrent, ?_⟩⟩
        · exact List.forall_mem_cons.mpr ⟨hmem, fun w' hw' => ha₁.made (hrest w' hw')⟩
        · -- The contexts below see the same starting priority.
          cases rest with
          | nil => trivial
          | cons w' rest =>
            obtain ⟨hnext, hbelow⟩ := hsync w (w' :: rest) rfl
            refine ⟨?_, hbelow⟩
            rw [Suspended.Current, hsettled.2]
            exact hnext
      · refine (ih ha₁.sound hmem fun w' hw' => ha₁.made (hrest w' hw')).bind
          fun K₂ s₂ rest' ha₂ hrest' => .pure ha₂.sound ?_
        obtain ⟨hmade, hplaces, hsync'⟩ := hrest'
        refine ⟨List.forall_mem_cons.mpr ⟨ha₂.made hmem, hmade⟩, ?_, fun hsync => ⟨hcurrent, ?_⟩⟩
        · rw [List.map_cons, hplaces]
          rfl
        · refine hsync' fun w' rest'' heq => ?_
          have hbelow := hsync w rest rfl
          rw [heq] at hbelow
          exact hbelow.2

/-! ## What is learned -/

section Learning

variable {h : DynamicHeuristic}

theorem tail_of_currentAll {callers : List Suspended} (hsync : CurrentAll a.module c callers)
    (w : Suspended) (rest : List Suspended) (heq : callers = w :: rest) :
    CurrentAll a.module w.context rest := by
  subst heq
  exact hsync.2

/-- Another context of the function becomes the active one. -/
theorem replaceTop_makes (hs : s.Sound K) (hc : c ∈ K) (hfun : c.function = h.top.function)
    (hcallers : ∀ w ∈ h.callers, w.context ∈ K) :
    Makes K s (replaceTop h c) fun K' _ h' => h'.Within K' ∧ h'.position = h.position ∧
      h'.top = c ∧ ((∀ w rest, h.callers = w :: rest → CurrentAll a.module w.context rest) →
        h'.InSync a.module) := by
  rw [replaceTop]
  refine (propagate_makes hs h.callers hc hcallers).bind fun K₁ s₁ callers ha₁ hcallers' => ?_
  obtain ⟨hmade, hplaces, hsync⟩ := hcallers'
  refine .pure ha₁.sound ⟨⟨ha₁.made hc, hmade⟩, ?_, rfl, hsync⟩
  rw [DynamicHeuristic.position, DynamicHeuristic.position, hfun, hplaces]

theorem adopt_makes (hs : s.Sound K) (hh : h.Within K) (hc : c ∈ K)
    (hfun : c.function = h.top.function) :
    Makes K s (adopt h c) fun K' _ h' => h.Keeps a.module K' h' ∧ h'.top = c := by
  rw [adopt]
  split
  · next hid => exact .pure hs ⟨⟨hh, rfl, id⟩, hs.id_inj _ hh.top _ hc hid.symm⟩
  · exact (replaceTop_makes hs hc hfun hh.callers).imp fun K' _ h' _ hkeep =>
      ⟨⟨hkeep.1, hkeep.2.1, fun hsync => hkeep.2.2.2 (tail_of_currentAll hsync)⟩, hkeep.2.2.1⟩

/-- A thread that learns about a value stays where it is. -/
theorem learn_makes (hm : a.module.Built) (hs : s.Sound K) (hidle : s.Idle) (hh : h.Within K)
    (pc : ValueId) (isNvm : Bool) :
    Makes K s (learn h pc isNvm) fun K' _ h' => h.Keeps a.module K' h' := by
  rw [learn]
  cases DynamicHeuristic.eventValue? a.module pc with
  | none => exact .pure hs ⟨hh, rfl, id⟩
  | some v =>
    refine (updateContext_makes hm hs hidle hh.top v isNvm).bind fun K₁ s₁ c ha₁ hc => ?_
    exact (adopt_makes ha₁.sound (hh.mono ha₁.made) hc.mem hc.function).imp
      fun K' _ h' _ hkeeps => hkeeps.1

/-- A thread that learns what a call calls stays where it is, and has a context for it. -/
theorem learnCallee_makes (hm : a.module.Built) (hs : s.Sound K) (hidle : s.Idle)
    (hh : h.Within K) (pc : ValueId) (callee : FunctionId) :
    Makes K s (learnCallee h pc callee) fun K' _ h' => h.Keeps a.module K' h' ∧
      (a.module.isDefined callee = true →
        ∃ child, h'.top.child? pc = some child ∧ child.function = callee) := by
  rw [learnCallee]
  refine (resolveCall_makes hm hs hidle hh.top pc callee).bind fun K₁ s₁ c ha₁ hc => ?_
  exact (adopt_makes ha₁.sound (hh.mono ha₁.made) hc.1.mem hc.1.function).imp
    fun K' _ h' _ hkeeps => ⟨hkeeps.1, hkeeps.2 ▸ hc.2⟩

end Learning

/-! ## Steps -/

/-- A thread that leaves a function is back in the caller, and in sync if it was. -/
theorem leave_makes (hm : a.module.Built) (hs : s.Sound K) (hidle : s.Idle) (hh : h.Within K)
    (ret : ValueId) {w : Suspended} {rest : List Suspended} (hcallers : h.callers = w :: rest) :
    Makes K s (leave h ret) fun K' _ h' => h'.Within K' ∧
      h'.position = ⟨w.context.function, h.current, rest.map Suspended.place⟩ ∧
      (h.InSync a.module → h'.InSync a.module) := by
  obtain ⟨hw, hrest⟩ := List.forall_mem_cons.mp (hcallers ▸ hh.callers)
  have hsync : h.InSync a.module → CurrentAll a.module w.context rest :=
    fun h => tail_of_currentAll h w rest hcallers
  rw [leave, hcallers]
  dsimp only
  refine (doReturn_quiet.makes hs).bind fun K₁ s₁ state ha₁ _ => ?_
  split
  · exact .pure ha₁.sound ⟨⟨ha₁.made hw, fun w' hw' => ha₁.made (hrest w' hw')⟩, rfl, hsync⟩
  · refine (rebuild_makes hm ha₁.sound (ha₁.idle hidle) (ha₁.made hw) state).bind
      fun K₂ s₂ c ha₂ hc => ?_
    have ha := ha₁.trans ha₂
    refine (replaceTop_makes (h := ⟨w.context, rest, h.current⟩) ha₂.sound hc.mem hc.function
      fun w' hw' => ha.made (hrest w' hw')).imp fun K₃ s₃ h' _ hh' => ?_
    exact ⟨hh'.1, hh'.2.1, fun hin => hh'.2.2.2 (tail_of_currentAll (hsync hin))⟩

/-- A step into the child of a call makes that child the active context. -/
theorem stepDynamic_of_child {pc next : ValueId} {i : Instruction}
    (hcall : a.module.isCall pc = true) (hi : a.module.instruction? next = some i)
    (hfirst : i.function = h.top.function → a.module.firstInstruction? i.function = some next)
    (hchild : h.top.child? pc = some child) (hfun : child.function = i.function) (s : Session a) :
    stepDynamic h pc next s = (⟨child, ⟨h.top, pc⟩ :: h.callers, next⟩, s) := by
  rw [stepDynamic, bind_run, nextContext_of_child hcall hi hfirst hchild hfun]
  rfl

/-- A thread goes where the step leads.  It stays in sync unless it enters a context that
is not the child of the call. -/
theorem stepDynamic_makes (hm : a.module.Built) (hs : s.Sound K) (hidle : s.Idle)
    (hh : h.Within K) {pc next : ValueId} (hexists : a.module.isCall pc = true →
      ∀ i, a.module.instruction? next = some i → (a.module.function? i.function).isSome = true) :
    Makes K s (stepDynamic h pc next) fun K' _ h' => h'.Within K' ∧
      h.position.Turns a.module pc next h'.position ∧
      (h.InSync a.module →
        (h.depth < h'.depth → h.top.child? pc = some h'.top) → h'.InSync a.module) := by
  rw [stepDynamic]
  refine (nextContext_makes hm hs hidle hh.top hexists).bind fun K₁ s₁ turn ha₁ hturn => ?_
  have hh₁ := hh.mono ha₁.made
  cases hturn with
  | same hreturn hcall =>
    exact .pure ha₁.sound ⟨⟨hh₁.top, hh₁.callers⟩, .same hreturn hcall, fun hsync _ => hsync⟩
  | enter hcall hi hfirst hmem hfun =>
    refine .pure ha₁.sound ⟨⟨hmem, List.forall_mem_cons.mpr ⟨hh₁.top, hh₁.callers⟩⟩, ?_, ?_⟩
    · have hturns := Position.Turns.enter (p := h.position) hcall hi hfirst
      rwa [← hfun] at hturns
    · exact fun hsync hchild => ⟨ha₁.sound.current hh₁.top (hchild (Nat.lt_succ_self _)), hsync⟩
  | leave hreturn =>
    dsimp only
    cases hcallers : h.callers with
    | nil =>
      have hstay : leave h pc = (pure h : SessionM a DynamicHeuristic) := by rw [leave, hcallers]
      rw [hstay]
      refine .pure ha₁.sound ⟨⟨hh₁.top, hh₁.callers⟩, .stay hreturn ?_, fun hsync _ => hsync⟩
      rw [DynamicHeuristic.position, hcallers]
      rfl
    | cons w rest =>
      refine (leave_makes hm ha₁.sound (ha₁.idle hidle) hh₁ pc hcallers).bind
        fun K₂ s₂ h' ha₂ hh' => .pure ha₂.sound ?_
      obtain ⟨hwithin, hposition, hsync⟩ := hh'
      refine ⟨⟨hwithin.top, hwithin.callers⟩, ?_, fun h _ => hsync h⟩
      have hplaces : h.position.callers = w.place :: rest.map Suspended.place := by
        rw [DynamicHeuristic.position, hcallers]
        rfl
      have hturns : h.position.Turns a.module pc next ⟨_, next, _⟩ := .leave hreturn hplaces
      rw [DynamicHeuristic.position, Position.mk.injEq] at hposition
      obtain ⟨hfun, -, hcallers'⟩ := hposition
      rwa [← hfun, ← hcallers'] at hturns

end Session

end PmemPaths.Nvm
