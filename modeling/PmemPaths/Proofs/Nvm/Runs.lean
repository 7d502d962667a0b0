import PmemPaths.Nvm.Heuristic
import PmemPaths.Proofs.Nvm.Threads

/-!
# Runs

The heuristics of a program live in one session.  Factories make them, and each event
takes one of them along; the heuristic from before stays around, as that of another
thread may (`Run`).  A run notes for each heuristic where its thread is, in whatever way
the thread is followed.

In every run the contexts fit together, nothing is under construction between the
events, and what each event preserves holds of all heuristics (`Run.invariant`).
-/

namespace PmemPaths.Nvm

open PmemPaths.Ir

variable {a : Analysis}

/-! ## Events -/

/-- What happens to a thread. -/
inductive Event where
  /-- It learns whether an instruction touched persistent memory. -/
  | learn (pc : ValueId) (isNvm : Bool)
  /-- It learns what a call calls. -/
  | learnCallee (pc : ValueId) (callee : FunctionId)
  /-- It goes from one instruction to another. -/
  | step (pc next : ValueId)

/-- The heuristic after an event. -/
def Heuristic.take (h : Heuristic) : Event → CheckedM a Heuristic
  | .learn pc isNvm => CheckedM.ofSession (h.learn pc isNvm)
  | .learnCallee pc callee => h.learnCallee pc callee
  | .step pc next => h.step pc next

namespace Event

/-- The functions that the event names exist. -/
def Exists (m : Module) : Event → Prop
  | .learn _ _ => True
  | .learnCallee _ callee => (m.function? callee).isSome = true
  | .step pc next => m.isCall pc = true →
      ∀ i, m.instruction? next = some i → (m.function? i.function).isSome = true

/-- What an event makes of a heuristic. -/
def Outcome (m : Module) (K : Set Context) (h h' : DynamicHeuristic) : Event → Prop
  | .learn _ _ => h.Keeps m K h'
  | .learnCallee pc callee => h.Keeps m K h' ∧ (m.isDefined callee = true →
      ∃ child, h'.top.child? pc = some child ∧ child.function = callee)
  | .step pc next => h'.Within K ∧ h.position.Turns m pc next h'.position ∧
      (h.InSync m → (h.depth < h'.depth → h.top.child? pc = some h'.top) → h'.InSync m)

variable {K : Set Context} {h h' : DynamicHeuristic} {e : Event}

theorem Outcome.within (ho : e.Outcome a.module K h h') : h'.Within K := by
  cases e with
  | learn pc isNvm => exact ho.within
  | learnCallee pc callee => exact ho.1.within
  | step pc next => exact ho.1

end Event

namespace Session

variable {K K' : Set Context} {s s' : Session a} {h h' : DynamicHeuristic} {e : Event}

theorem map_run {β γ : Type} (g : β → γ) (act : CheckedM a β) (s : Session a) :
    (g <$> act) s = (act s).map fun r => (g r.1, r.2) := by
  change Except.bind (act s) _ = _
  cases act s <;> rfl

theorem onFunction_run {β : Type} (f : FunctionId) (act : SessionM a β) (s : Session a) :
    CheckedM.onFunction f act s =
      if (a.module.function? f).isSome then .ok (act s) else .error .outOfBounds := by
  rw [CheckedM.onFunction]
  split <;> rfl

/-- What an event does to a heuristic that follows the call stack. -/
def act (h : DynamicHeuristic) : Event → SessionM a DynamicHeuristic
  | .learn pc isNvm => learn h pc isNvm
  | .learnCallee pc callee => learnCallee h pc callee
  | .step pc next => stepDynamic h pc next

/-- An event whose functions exist goes through. -/
theorem take_dynamic (he : e.Exists a.module) (h : DynamicHeuristic) (s : Session a) :
    (Heuristic.dynamic h).take e s = .ok (.dynamic (act h e s).1, (act h e s).2) := by
  cases e with
  | learn pc isNvm => rfl
  | learnCallee pc callee =>
    have hf : (a.module.function? callee).isSome = true := he
    rw [Heuristic.take, Heuristic.learnCallee, map_run, onFunction_run, if_pos hf]
    rfl
  | step pc next =>
    rw [Heuristic.take, Heuristic.step, map_run, CheckedM.onStep]
    cases hcall : a.module.isCall pc with
    | false => rfl
    | true =>
      cases hi : a.module.instruction? next with
      | none => rfl
      | some i =>
        dsimp only
        rw [onFunction_run, if_pos (he hcall i hi)]
        rfl

/-- Only an event whose functions exist goes through. -/
theorem exists_of_take {r : Heuristic × Session a}
    (hr : (Heuristic.dynamic h).take e s = .ok r) : e.Exists a.module := by
  cases e with
  | learn pc isNvm => trivial
  | learnCallee pc callee =>
    rw [Heuristic.take, Heuristic.learnCallee, map_run, onFunction_run] at hr
    split at hr
    · assumption
    · cases hr
  | step pc next =>
    intro hcall i hi
    rw [Heuristic.take, Heuristic.step, map_run, CheckedM.onStep, hcall, hi] at hr
    dsimp only at hr
    rw [onFunction_run] at hr
    split at hr
    · assumption
    · cases hr

theorem act_makes (hm : a.module.Built) (hs : s.Sound K) (hidle : s.Idle) (hh : h.Within K)
    (he : e.Exists a.module) :
    Makes K s (act h e) fun K' _ h' => e.Outcome a.module K' h h' := by
  cases e with
  | learn pc isNvm => exact learn_makes hm hs hidle hh pc isNvm
  | learnCallee pc callee => exact learnCallee_makes hm hs hidle hh pc callee
  | step pc next => exact stepDynamic_makes hm hs hidle hh he

/-! ## Factories -/

theorem startDynamic_makes (hm : a.module.Built) (hs : s.Sound K) (hidle : s.Idle)
    {f : FunctionId} (hf : (a.module.function? f).isSome = true) (first : ValueId)
    (d : Descriptor) :
    Makes K s (startDynamic f first d) fun K' _ h' =>
      h'.Within K' ∧ h'.position = ⟨f, first, []⟩ := by
  rw [startDynamic]
  refine (construct_makes hm hs hidle hf false).bind fun K₁ s₁ c ha₁ hc => .pure ha₁.sound ?_
  refine ⟨⟨hc.mem, fun w hw => nomatch hw⟩, ?_⟩
  rw [DynamicHeuristic.position, hc.function]
  rfl

theorem coreTable_quiet (d : Facts) : Quiet (a := a) (coreTable d) fun _ => True :=
  (weights_quiet _ _ _).bind fun _ _ => .pure trivial

theorem someTables_quiet (d : Facts) : Quiet (a := a) (some <$> staticTables d) fun _ => True := by
  rw [map_eq_pure_bind, staticTables, bind_assoc]
  exact (coreTable_quiet _).bind fun _ _ => .pure trivial

theorem prepare_makes (hs : s.Sound K) (settings : Config.Settings) (sites : List ValueId) :
    Makes K s (Factory.prepare settings sites) fun _ _ _ => True := by
  rw [Factory.prepare]
  refine (fresh_makes hs).bind fun K₁ s₁ id ha₁ _ => ?_
  refine (intern_makes ha₁.sound _).bind fun K₂ s₂ initial ha₂ _ => ?_
  split
  · exact ((someTables_quiet _).makes ha₂.sound).bind
      fun K₃ s₃ t ha₃ _ => .pure ha₃.sound trivial
  · exact .pure ha₂.sound trivial

theorem make_makes (hs : s.Sound K) (settings : Config.Settings) (sites : Option (List ValueId)) :
    Makes K s (Factory.make settings sites) fun _ _ _ => True := by
  rw [Factory.make]
  split
  · exact .pure hs trivial
  · refine (prepare_makes hs settings []).bind fun K₁ s₁ plain ha₁ _ => ?_
    cases sites with
    | none => exact .pure ha₁.sound trivial
    | some sites =>
      refine (prepare_makes ha₁.sound settings sites).bind fun K₂ s₂ p ha₂ _ => ?_
      exact .pure ha₂.sound trivial

/-- A heuristic that follows the call stack is made for a function with a body, at its
first instruction. -/
theorem create_eq_dynamic {p : Factory} {entry : FunctionId}
    (hc : p.create entry s = (.ok (.dynamic h), s')) :
    a.module.isDefined entry = true ∧ ∃ first, a.module.firstInstruction? entry = some first ∧
      startDynamic entry first p.initial s = (h, s') := by
  cases hf : a.module.function? entry with
  | none =>
    rw [Factory.create, hf] at hc
    cases hc
  | some f =>
    cases hbody : f.isDeclaration with
    | true =>
      rw [Factory.create, hf] at hc
      simp only [hbody] at hc
      cases hc
    | false =>
      have hdef : a.module.isDefined entry = true := by
        rw [Module.isDefined, hf, Option.any_some, hbody]
        rfl
      cases hfirst : a.module.firstInstruction? entry with
      | none =>
        rw [Factory.create, hf] at hc
        simp only [hbody, hfirst] at hc
        cases hc
      | some first =>
        rw [Factory.create, hf] at hc
        simp only [hbody, hfirst] at hc
        refine ⟨hdef, first, rfl, ?_⟩
        cases hstrategy : p.settings.strategy with
        | off | invalid =>
          rw [hstrategy] at hc
          cases hc
        | static =>
          rw [hstrategy] at hc
          cases htables : p.tables with
          | none | some t =>
            rw [htables] at hc
            cases hc
        | dynamic =>
          rw [hstrategy] at hc
          cases hc
          rfl

/-- A factory for such heuristics makes one for every function with a body. -/
theorem create_dynamic (hm : a.module.Built) {p : Factory} (hp : p.settings.strategy = .dynamic)
    {entry : FunctionId} (hdef : a.module.isDefined entry = true) (s : Session a) :
    ∃ first, a.module.firstInstruction? entry = some first ∧ p.create entry s =
      (.ok (.dynamic (startDynamic entry first p.initial s).1),
        (startDynamic entry first p.initial s).2) := by
  obtain ⟨first, hfirst⟩ := hm.exists_firstInstruction hdef
  obtain ⟨f, hf, hblocks⟩ := Module.isDefined_iff.mp hdef
  have hbody : f.isDeclaration = false := List.isEmpty_eq_false_iff.mpr hblocks
  refine ⟨first, hfirst, ?_⟩
  rw [Factory.create, hf]
  simp only [hbody, hfirst, hp]
  rfl

end Session

/-- A factory for heuristics that follow the call stack and know of no site. -/
def dynamicFactory : Factory where
  settings := { strategy := .dynamic }
  initial := ⟨0, { allocs := ∅ }⟩
  tables := none

/-- A function that calls another one, which returns. -/
def directCall : Listing where
  name := "m"
  items := [.declare "f" [] false, .declare "main" [] false, .define ⟨0⟩ [.ret none],
    .define ⟨1⟩ [.instruction "r" (.call (.direct ⟨0⟩) []), .ret none]]

/-! ## Runs -/

variable {σ : Type} {starts : FunctionId → ValueId → σ → Prop}
  {goes : DynamicHeuristic → Event → σ → σ → Prop}

/-- The heuristics of a run, each with a note of where its thread is, and the session
they share.  Notes are made where a thread starts and where an event takes it. -/
inductive Run (a : Analysis) (starts : FunctionId → ValueId → σ → Prop)
    (goes : DynamicHeuristic → Event → σ → σ → Prop) :
    List (DynamicHeuristic × σ) → Session a → Prop
  | empty : Run a starts goes [] {}
  | make {hs : List (DynamicHeuristic × σ)} {s : Session a} (settings : Config.Settings)
      (sites : Option (List ValueId)) :
      Run a starts goes hs s → Run a starts goes hs (Factory.make settings sites s).2
  | create {hs : List (DynamicHeuristic × σ)} {s s' : Session a} {h : DynamicHeuristic}
      {note : σ} (p : Factory) (entry : FunctionId) (first : ValueId) :
      Run a starts goes hs s → p.create entry s = (.ok (.dynamic h), s') →
      a.module.firstInstruction? entry = some first → starts entry first note →
      Run a starts goes ((h, note) :: hs) s'
  | event {hs : List (DynamicHeuristic × σ)} {s s' : Session a} {h h' : DynamicHeuristic}
      {note note' : σ} (e : Event) :
      Run a starts goes hs s → (h, note) ∈ hs → goes h e note note' →
      (Heuristic.dynamic h).take e s = .ok (.dynamic h', s') →
      Run a starts goes ((h', note') :: hs) s'

theorem forall_within_mono {K K' : Set Context} {I : DynamicHeuristic → σ → Prop}
    {hs : List (DynamicHeuristic × σ)} (hall : ∀ x ∈ hs, x.1.Within K ∧ I x.1 x.2)
    (hsub : K ⊆ K') : ∀ x ∈ hs, x.1.Within K' ∧ I x.1 x.2 :=
  fun x hx => ⟨(hall x hx).1.mono hsub, (hall x hx).2⟩

/-- What holds of a thread that starts, and what each event preserves, holds of all
heuristics of a run.  Their contexts were made, and nothing is under construction. -/
theorem Run.invariant (hm : a.module.Built) {I : DynamicHeuristic → σ → Prop}
    (hstart : ∀ h entry first note, a.module.firstInstruction? entry = some first →
      starts entry first note → h.position = ⟨entry, first, []⟩ → I h note)
    (hevent : ∀ K h h' e note note', I h note → goes h e note note' →
      e.Outcome a.module K h h' → I h' note')
    {hs : List (DynamicHeuristic × σ)} {s : Session a} (hrun : Run a starts goes hs s) :
    ∃ K, s.Sound K ∧ s.Idle ∧ ∀ x ∈ hs, x.1.Within K ∧ I x.1 x.2 := by
  induction hrun with
  | empty => exact ⟨∅, Session.Sound.empty, Session.Idle.empty, fun x hx => nomatch hx⟩
  | make settings sites _ ih =>
    obtain ⟨K, hsound, hidle, hall⟩ := ih
    obtain ⟨K', ha, -⟩ := Session.make_makes hsound settings sites
    exact ⟨K', ha.sound, ha.idle hidle, forall_within_mono hall ha.made⟩
  | create p entry first _ hcreate hfirst hstarts ih =>
    obtain ⟨K, hsound, hidle, hall⟩ := ih
    obtain ⟨hdef, first', hfirst', hrun⟩ := Session.create_eq_dynamic hcreate
    obtain ⟨K', ha, hwithin, hposition⟩ := Session.startDynamic_makes hm hsound hidle
      (Module.isSome_of_isDefined hdef) first' p.initial
    rw [hrun] at ha hwithin hposition
    rw [hfirst, Option.some.injEq] at hfirst'
    refine ⟨K', ha.sound, ha.idle hidle, List.forall_mem_cons.mpr ⟨⟨hwithin, ?_⟩,
      forall_within_mono hall ha.made⟩⟩
    exact hstart _ entry first _ hfirst hstarts (hfirst' ▸ hposition)
  | event e _ hmem hgoes htake ih =>
    obtain ⟨K, hsound, hidle, hall⟩ := ih
    obtain ⟨hwithin, hI⟩ := hall _ hmem
    have hexists := Session.exists_of_take htake
    obtain ⟨K', ha, houtcome⟩ := Session.act_makes hm hsound hidle hwithin hexists
    rw [Session.take_dynamic hexists] at htake
    cases htake
    refine ⟨K', ha.sound, ha.idle hidle, List.forall_mem_cons.mpr ⟨⟨houtcome.within, ?_⟩,
      forall_within_mono hall ha.made⟩⟩
    exact hevent K' _ _ e _ _ hI hgoes houtcome

theorem Run.within (hm : a.module.Built) {hs : List (DynamicHeuristic × σ)} {s : Session a}
    (hrun : Run a starts goes hs s) : ∃ K, s.Sound K ∧ s.Idle ∧ ∀ x ∈ hs, x.1.Within K := by
  obtain ⟨K, hsound, hidle, hall⟩ := hrun.invariant (I := fun _ _ => True) hm
    (fun _ _ _ _ _ _ _ => trivial) fun _ _ _ _ _ _ _ _ _ => trivial
  exact ⟨K, hsound, hidle, fun x hx => (hall x hx).1⟩

end PmemPaths.Nvm
