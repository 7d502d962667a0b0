import Mathlib.Logic.Relation
import PmemPaths.Proofs.Nvm.Keeping
import PmemPaths.Proofs.Nvm.Runs

/-!
# Contexts that are asked for

Whoever uses a session holds the facts and the contexts it got, and asks for more of both
with what it holds (`Desk.Step`).  The nested constructions of an operation are steps too:
an operation on a context enters calls, asks questions, constructs and installs children.

Whatever was asked for before, all contexts that are held are self-consistent
(`Desk.selfConsistent`), and equal facts share one context for ever
(`Desk.shares_forever`).
-/

namespace PmemPaths.Nvm

open PmemPaths.Ir

variable {a : Analysis}

/-! ## Asking for facts and contexts -/

/-- Facts and contexts that were asked for, and the session they are from. -/
structure Desk (a : Analysis) where
  /-- The facts. -/
  descriptors : List Descriptor := []
  /-- The contexts. -/
  contexts : List Context := []
  /-- The session. -/
  session : Session a := {}

namespace Desk

/-- One more descriptor. -/
def addDescriptor (k : Desk a) (d : Descriptor) (s : Session a) : Desk a :=
  { k with descriptors := d :: k.descriptors, session := s }

/-- One more context. -/
def addContext (k : Desk a) (c : Context) (s : Session a) : Desk a :=
  { k with contexts := c :: k.contexts, session := s }

/-- The operations that give a descriptor, on what is held. -/
inductive Describes (k : Desk a) : CheckedM a Descriptor → Prop
  | initial (names : List String) (sites : List ValueId) :
      Describes k (.ofSession do return ⟨← Session.fresh, .initial a.module names sites⟩)
  | state {c : Context} : c ∈ k.contexts → Describes k (pure c.state)
  | intern {d : Descriptor} : d ∈ k.descriptors → Describes k (.ofSession (Session.intern d))
  | update {d : Descriptor} (v : ValueId) (isNvm : Bool) : d ∈ k.descriptors →
      Describes k (.ofSession (Session.update d v isNvm))
  | doCall {d : Descriptor} (call : ValueId) (f : FunctionId) : d ∈ k.descriptors →
      Describes k (.doCall d call f)
  | doReturn {callee caller : Descriptor} (ret call : ValueId) : callee ∈ k.descriptors →
      caller ∈ k.descriptors → Describes k (.ofSession (Session.doReturn callee caller ret call))

/-- The operations that give a context, on what is held. -/
inductive Builds (k : Desk a) : CheckedM a Context → Prop
  | child {c child : Context} {v : ValueId} : c ∈ k.contexts → c.child? v = some child →
      Builds k (pure child)
  | construct {d : Descriptor} (f : FunctionId) (r : Bool) : d ∈ k.descriptors →
      Builds k (.construct f d r)
  | withChild {c child : Context} (call : ValueId) : c ∈ k.contexts → child ∈ k.contexts →
      Builds k (.ofSession (Session.withChild c call child))
  | resolveCall {c : Context} (call : ValueId) (f : FunctionId) : c ∈ k.contexts →
      Builds k (.resolveCall c call f)
  | rebuild {c : Context} {d : Descriptor} : c ∈ k.contexts → d ∈ k.descriptors →
      Builds k (.ofSession (Session.rebuild c d))
  | updateContext {c : Context} (v : ValueId) (isNvm : Bool) : c ∈ k.contexts →
      Builds k (.ofSession (Session.updateContext c v isNvm))

/-- The context that a step enters is held from then on. -/
def follow (k : Desk a) : NextContext → Session a → Desk a
  | .enter c, s => k.addContext c s
  | .same, s | .leave, s => { k with session := s }

/-- An operation that goes through. -/
inductive Step (k : Desk a) : Desk a → Prop
  | descriptor {act : CheckedM a Descriptor} {d : Descriptor} {s : Session a} :
      k.Describes act → act k.session = .ok (d, s) → Step k (k.addDescriptor d s)
  | context {act : CheckedM a Context} {c : Context} {s : Session a} :
      k.Builds act → act k.session = .ok (c, s) → Step k (k.addContext c s)
  | next {c : Context} {pc next : ValueId} {n : NextContext} {s : Session a} : c ∈ k.contexts →
      CheckedM.nextContext c pc next k.session = .ok (n, s) → Step k (k.follow n s)
  /-- A question about a value. -/
  | ask (d : Facts) (v : ValueId) : Step k { k with session := (Session.mayPoint d v k.session).2 }

/-- Any number of operations. -/
abbrev Reaches : Desk a → Desk a → Prop := Relation.ReflTransGen Step

/-! ## What is preserved -/

open Session

variable {K K' : Set Context} {D D' : Set Descriptor} {k k' : Desk a} {s s' : Session a}

/-- The contexts held were made and are rooted, and the descriptors held are known, in a
session that is in order. -/
structure Kept (K : Set Context) (D : Set Descriptor) (k : Desk a) : Prop where
  sound : k.session.Sound K
  signed : Signed D k.session
  ordered : k.session.Ordered
  idle : k.session.Idle
  made : ∀ c ∈ k.contexts, c ∈ K
  rooted : ∀ c ∈ k.contexts, k.session.Rooted (fun _ => True) c
  known : ∀ d ∈ k.descriptors, Known D k.session d

theorem Kept.empty : Kept ∅ ∅ ({} : Desk a) where
  sound := .empty
  signed := .empty
  ordered := .empty
  idle := .empty
  made := List.forall_mem_nil _
  rooted := List.forall_mem_nil _
  known := List.forall_mem_nil _

/-- The session goes on, and nothing more is held. -/
theorem Kept.later (hk : k.Kept K D) (ha : Advance K k.session K' s) (hl : Later D k.session D' s) :
    Kept K' D' { k with session := s } where
  sound := ha.sound
  signed := hl.signed hk.signed
  ordered := hl.ordered
  idle := hl.idle
  made c hc := ha.made (hk.made c hc)
  rooted c hc := (hk.rooted c hc).mono hl.toExtends
  known d hd := hl.of_known (hk.known d hd)

theorem Kept.addDescriptor {d : Descriptor} (hk : Kept K D { k with session := s })
    (hd : Known D s d) : Kept K D (k.addDescriptor d s) :=
  { hk with known := List.forall_mem_cons.mpr ⟨hd, hk.known⟩ }

theorem Kept.addContext {c : Context} (hk : Kept K D { k with session := s }) (hc : c ∈ K)
    (hrooted : s.Rooted (fun _ => True) c) : Kept K D (k.addContext c s) :=
  { hk with
    made := List.forall_mem_cons.mpr ⟨hc, hk.made⟩
    rooted := List.forall_mem_cons.mpr ⟨hrooted, hk.rooted⟩ }

theorem ok_of_onFunction {β : Type} {f : FunctionId} {act : SessionM a β} {r : β × Session a}
    (h : CheckedM.onFunction f act s = .ok r) :
    (a.module.function? f).isSome = true ∧ act s = r := by
  rw [onFunction_run] at h
  split at h
  · next hf => exact ⟨hf, Except.ok.inj h⟩
  · cases h

theorem ok_of_onStep {β : Type} {pc next : ValueId} {act : SessionM a β} {r : β × Session a}
    (h : CheckedM.onStep pc next act s = .ok r) :
    (a.module.isCall pc = true → ∀ i, a.module.instruction? next = some i →
      (a.module.function? i.function).isSome = true) ∧ act s = r := by
  rw [CheckedM.onStep] at h
  cases hcall : a.module.isCall pc with
  | false =>
    rw [hcall] at h
    exact ⟨fun hnot => absurd hnot Bool.false_ne_true, Except.ok.inj h⟩
  | true =>
    cases hi : a.module.instruction? next with
    | none =>
      rw [hcall, hi] at h
      refine ⟨fun _ j hj => ?_, Except.ok.inj h⟩
      cases hj
    | some i =>
      rw [hcall, hi] at h
      obtain ⟨hf, hact⟩ := ok_of_onFunction h
      refine ⟨fun _ j hj => ?_, hact⟩
      cases hj
      exact hf

/-- An operation on facts takes what is held along, and what it gives is known. -/
theorem Kept.describes {act : CheckedM a Descriptor} {d : Descriptor} (hk : k.Kept K D)
    (hact : k.Describes act) (hrun : act k.session = .ok (d, s)) :
    ∃ K' D', Advance K k.session K' s ∧ Later D k.session D' s ∧ Known D' s d := by
  have hsigns : ∀ {op : SessionM a Descriptor} {c : Descriptor} {A : Descriptor → Prop},
      Signs c op → Quiet op A → c ∈ k.descriptors → op k.session = (d, s) →
      ∃ K' D', Advance K k.session K' s ∧ Later D k.session D' s ∧ Known D' s d := by
    intro op c A hop hquiet hc hrun
    obtain ⟨K', D', ha, hl, -, -, hd⟩ := (hquiet.makes hk.sound).with_keeps
      (hop.keeps hquiet hk.ordered hk.idle (hk.known _ hc)) hrun
    exact ⟨K', D', ha, hl, .inl hd⟩
  cases hact with
  | initial names sites =>
    obtain ⟨hdescriptor, hsession⟩ := Prod.mk.inj (Except.ok.inj hrun)
    obtain ⟨K', D', ha, hl, -, hid⟩ := (fresh_makes hk.sound).with_keeps
      (fresh_keeps hk.ordered hk.idle (.initial a.module names sites)) rfl
    exact ⟨K', D', hsession ▸ ha, hsession ▸ hl, .inl (hdescriptor ▸ hid)⟩
  | state hc =>
    cases hrun
    exact ⟨K, D, .refl hk.sound, .refl hk.ordered hk.idle, (hk.rooted _ hc).known⟩
  | intern hd =>
    obtain ⟨K', D', ha, hl, -, hd⟩ := (intern_makes hk.sound _).with_keeps
      (intern_keeps hk.ordered hk.idle (hk.known _ hd)) (Except.ok.inj hrun)
    exact ⟨K', D', ha, hl, hd⟩
  | update v isNvm hd => exact hsigns update_signs update_quiet hd (Except.ok.inj hrun)
  | doCall call f hd =>
    rw [CheckedM.doCall] at hrun
    split at hrun
    · exact hsigns doCall_signs doCall_quiet hd (ok_of_onFunction hrun).2
    · cases hrun
      exact ⟨K, D, .refl hk.sound, .refl hk.ordered hk.idle, hk.known _ hd⟩
  | doReturn ret call _ hcaller =>
    exact hsigns doReturn_signs doReturn_quiet hcaller (Except.ok.inj hrun)

variable (hm : a.module.Built)

include hm

/-- An operation on contexts takes what is held along, and what it gives was made and is
rooted. -/
theorem Kept.builds {act : CheckedM a Context} {c : Context} (hk : k.Kept K D)
    (hact : k.Builds act) (hrun : act k.session = .ok (c, s)) :
    ∃ K' D', Advance K k.session K' s ∧ Later D k.session D' s ∧ c ∈ K' ∧
      s.Rooted (fun _ => True) c := by
  have hP : ∀ f, a.module.isDefined f = true → True := fun _ _ => trivial
  cases hact with
  | child hc hchild =>
    cases hrun
    exact ⟨K, D, .refl hk.sound, .refl hk.ordered hk.idle,
      hk.sound.child _ (hk.made _ hc) _ _ hchild, (hk.rooted _ hc).child hchild⟩
  | construct f r hd =>
    obtain ⟨hf, hrun⟩ := ok_of_onFunction hrun
    obtain ⟨K', D', ha, hl, hmade, hfiled⟩ :=
      (construct_makes hm hk.sound hk.idle hf r).with_keeps
        (construct_keeps hk.ordered hk.idle (hk.known _ hd) r) hrun
    exact ⟨K', D', ha, hl, hmade.mem, hl.ordered.rooted hP hfiled trivial⟩
  | withChild call hc hchild =>
    obtain ⟨K', D', ha, hl, hmade, hrooted, -⟩ :=
      (withChild_makes hk.sound (hk.made _ hc) (hk.made _ hchild) call).with_keeps
        (withChild_keeps hk.ordered hk.idle (hk.rooted _ hc) (hk.rooted _ hchild) call)
        (Except.ok.inj hrun)
    exact ⟨K', D', ha, hl, hmade.1, hrooted⟩
  | resolveCall call f hc =>
    obtain ⟨K', D', ha, hl, hmade, hrooted, -⟩ :=
      (resolveCall_makes hm hk.sound hk.idle (hk.made _ hc) call f).with_keeps
        (resolveCall_keeps hP hk.ordered hk.idle (hk.rooted _ hc) call f)
        (ok_of_onFunction hrun).2
    exact ⟨K', D', ha, hl, hmade.1.mem, hrooted⟩
  | rebuild hc hd =>
    obtain ⟨K', D', ha, hl, hmade, hrooted, -⟩ :=
      (rebuild_makes hm hk.sound hk.idle (hk.made _ hc) _).with_keeps
        (rebuild_keeps hP hk.ordered hk.idle (hk.rooted _ hc) (hk.known _ hd))
        (Except.ok.inj hrun)
    exact ⟨K', D', ha, hl, hmade.mem, hrooted⟩
  | updateContext v isNvm hc =>
    obtain ⟨K', D', ha, hl, hmade, hrooted, -⟩ :=
      (updateContext_makes hm hk.sound hk.idle (hk.made _ hc) v isNvm).with_keeps
        (updateContext_keeps hP hk.ordered hk.idle (hk.rooted _ hc) v isNvm)
        (Except.ok.inj hrun)
    exact ⟨K', D', ha, hl, hmade.mem, hrooted⟩

theorem Kept.step (hk : k.Kept K D) (hstep : k.Step k') :
    ∃ K' D', k'.Kept K' D' ∧ Extends k.session k'.session := by
  cases hstep with
  | descriptor hact hrun =>
    obtain ⟨K', D', ha, hl, hd⟩ := hk.describes hact hrun
    exact ⟨K', D', (hk.later ha hl).addDescriptor hd, hl.toExtends⟩
  | context hact hrun =>
    obtain ⟨K', D', ha, hl, hc, hrooted⟩ := hk.builds hm hact hrun
    exact ⟨K', D', (hk.later ha hl).addContext hc hrooted, hl.toExtends⟩
  | @next c pc next n s hc hrun =>
    obtain ⟨hexists, hrun⟩ := ok_of_onStep hrun
    have hexists' : ∀ i, a.module.instruction? next = some i → True := fun _ _ => trivial
    obtain ⟨K', D', ha, hl, hturn, hrooted⟩ :=
      (nextContext_makes hm hk.sound hk.idle (hk.made _ hc) hexists).with_keeps
        (nextContext_keeps (D := D) (fun _ _ => trivial) hk.ordered hk.idle (hk.rooted _ hc) pc
          hexists') hrun
    have hk' := hk.later ha hl
    cases hturn with
    | same => exact ⟨K', D', hk', hl.toExtends⟩
    | leave => exact ⟨K', D', hk', hl.toExtends⟩
    | enter _ _ _ hmem _ => exact ⟨K', D', hk'.addContext hmem (hrooted _ rfl), hl.toExtends⟩
  | ask d v =>
    have hquiet := mayPoint_quiet (a := a) (d := d) (v := v)
    obtain ⟨K', D', ha, hl, -, -⟩ := (hquiet.makes hk.sound).with_keeps
      (hquiet.keeps (D := D) hk.ordered hk.idle) rfl
    exact ⟨K', D', hk.later ha hl, hl.toExtends⟩

/-- Whatever is asked for, what is held stays in order, and nothing is lost. -/
theorem Kept.reaches (hk : k.Kept K D) (hreaches : Reaches k k') :
    ∃ K' D', k'.Kept K' D' ∧ Extends k.session k'.session := by
  induction hreaches with
  | refl => exact ⟨K, D, hk, .refl _⟩
  | tail _ hstep ih =>
    obtain ⟨K₁, D₁, hk₁, he₁⟩ := ih
    obtain ⟨K₂, D₂, hk₂, he₂⟩ := hk₁.step hm hstep
    exact ⟨K₂, D₂, hk₂, he₁.trans he₂⟩

/-- Between the operations interned facts are their own, and nothing is under construction. -/
theorem interns_and_idle (hk : Reaches {} k) : k.session.Interns ∧ k.session.Idle := by
  obtain ⟨K, D, hkept, -⟩ := Kept.empty.reaches hm hk
  exact ⟨hkept.ordered.interns, hkept.idle⟩

omit hm

/-! ## Self-consistency -/

/-- In whatever order they were asked for, all contexts weigh each instruction by what it
does under their facts and by what its child starts with, and their priorities follow from
these weights.  A context that is constructed has children at direct calls of functions with
bodies only, each of the function that is called and with what that function knows on
entry, and so have the contexts below it. -/
theorem selfConsistent {l : Listing} (hl : l.build = .ok a.module) (hk : Reaches {} k) :
    (∀ c ∈ k.contexts,
      (∀ v ∈ a.module.instructionsOf c.function, ∀ s : Session a,
        let core := (coreWeight c.state.value c.returnHasWeight v s).1
        c.weights[v]? = some ((c.child? v).elim core fun child =>
          addCapped core (child.rootPriority a.module))) ∧
      c.priorities = priorities a.module c.function c.weights) ∧
    ∀ f d r c s', d ∈ k.descriptors → CheckedM.construct f d r k.session = .ok (c, s') →
      c.function = f ∧ c.state.value = d.value ∧ c.All fun c => ∀ v child,
        c.child? v = some child → v ∈ a.module.instructionsOf c.function ∧
          ∃ callee, a.module.calledFunction? v = some callee ∧
            a.module.isDefined callee = true ∧ child.function = callee ∧
            ∀ s : Session a, child.state.value = (doCall c.state v callee s).1.value := by
  have hm := Listing.build_built hl
  obtain ⟨K, D, hkept, -⟩ := Kept.empty.reaches hm hk
  refine ⟨fun c hc => ?_, fun f d r c s' hd hrun => ?_⟩
  · have hcons := hkept.sound.consistent c (hkept.made c hc)
    refine ⟨fun v hv s => ?_, hcons.priorities⟩
    rw [coreWeight_quiet.answer, ← hcons.core v hv]
    cases hchild : c.child? v with
    | none => exact hcons.plain v hv hchild
    | some child => exact hcons.call v child hchild
  · obtain ⟨-, hrun⟩ := ok_of_onFunction hrun
    obtain ⟨D', hl, hfiled⟩ := construct_keeps hkept.ordered hkept.idle (hkept.known d hd) r
    rw [hrun] at hl hfiled
    have hcons := hl.ordered.filed _ _ hfiled
    refine ⟨hcons.function, hl.ordered.interns _ _ hcons.state, ?_⟩
    refine (hl.ordered.all_filed (fun _ _ => trivial) hfiled trivial).imp
      fun c hc v child hv => ?_
    obtain ⟨hmem, callee, hcalled, hdef, hbelow⟩ := (hl.ordered.filed _ _ hc.2).child v child hv
    have hchild := hl.ordered.filed _ _ hbelow
    refine ⟨hmem, callee, hcalled, hdef, hchild.function, fun s => ?_⟩
    rw [hl.ordered.interns _ _ hchild.state, (doCall_quiet s).2]

/-- Descriptors that know of no site, one after the other. -/
def plain (m : Module) (id : Nat) : Descriptor := ⟨id, .initial m [] []⟩

/-- A desk with so many of them. -/
theorem reaches_plain (n : Nat) :
    Reaches {} (⟨((List.range n).map (plain a.module)).reverse, [], { nextId := n }⟩ : Desk a) := by
  induction n with
  | zero => exact .refl
  | succ n ih =>
    refine ih.tail ?_
    rw [List.range_succ, List.map_append, List.reverse_append]
    exact .descriptor (.initial [] []) rfl

/-- A function that exists has a context under what is held. -/
theorem exists_construct {f : FunctionId} (hf : (a.module.function? f).isSome = true)
    (d : Descriptor) (r : Bool) (s : Session a) :
    ∃ c s', CheckedM.construct f d r s = .ok (c, s') :=
  ⟨_, _, (onFunction_run f _ s).trans (if_pos hf)⟩

/-- A return weighs something where somebody waits for it. -/
theorem selfConsistent_directCall : ∃ m, directCall.build = .ok m ∧ ∀ pointsTo,
    ∃ (k : Desk ⟨m, pointsTo⟩) (c : Context), Reaches {} k ∧ c ∈ k.contexts ∧
      c.function = ⟨1⟩ ∧ c.weights[(⟨4⟩ : ValueId)]? = some c.returnHasWeight.toNat := by
  obtain ⟨m, hl, hmain, hmem, hret⟩ := Listing.exists_build (l := directCall)
    (p := fun m => (m.function? ⟨1⟩).isSome ∧ ⟨4⟩ ∈ m.instructionsOf ⟨1⟩ ∧
      m.operation? ⟨4⟩ = some (.ret none))
    (by decide +kernel)
  refine ⟨m, hl, fun pointsTo => ?_⟩
  have hstart := reaches_plain (a := ⟨m, pointsTo⟩) 1
  have hheld : plain m 0 ∈ [plain m 0] := List.mem_cons_self
  obtain ⟨c, s, hrun⟩ := exists_construct (a := ⟨m, pointsTo⟩) hmain (plain m 0) true
    { nextId := 1 }
  have hreaches := hstart.tail (.context (.construct ⟨1⟩ true hheld) hrun)
  obtain ⟨hfun, -, hall⟩ := (selfConsistent hl hstart).2 _ _ _ _ _ hheld hrun
  obtain ⟨hweights, -⟩ := (selfConsistent hl hreaches).1 c List.mem_cons_self
  have hweight := hweights ⟨4⟩ (hfun ▸ hmem) s
  dsimp only at hweight
  -- Only calls have children.
  have hnone : c.child? ⟨4⟩ = none := by
    rw [Option.eq_none_iff_forall_not_mem]
    intro child hchild
    obtain ⟨-, callee, hcalled, -⟩ := hall.self ⟨4⟩ child hchild
    rw [Module.calledFunction?, hret] at hcalled
    cases hcalled
  rw [hnone, coreWeight_quiet.answer, Option.elim_none, Facts.coreWeight, hret] at hweight
  exact ⟨_, c, hreaches, List.mem_cons_self, hfun, hweight⟩

/-! ## Sharing -/

/-- What is filed under a key has its function and its facts, as have the children, and
stays.  Two constructions of one function under equal facts give one context, whatever
happens in between, and interning gives one descriptor for equal facts only. -/
theorem shares_forever {l : Listing} (hl : l.build = .ok a.module) (hk : Reaches {} k) :
    (∀ (key : ContextKey) (c : Context), k.session.contexts[key]? = some c →
      c.function = key.function ∧ c.state.value = key.facts ∧
      (∀ v child, c.child? v = some child → k.session.contexts[(⟨child.function,
        child.state.value⟩ : ContextKey)]? = some child) ∧
      ∀ k', Reaches k k' → k'.session.contexts[key]? = some c) ∧
    (∀ f d r c s, d ∈ k.descriptors → CheckedM.construct f d r k.session = .ok (c, s) →
      ∀ k', Reaches (k.addContext c s) k' → ∀ d' r' c' s', d' ∈ k'.descriptors →
        d'.value = d.value → CheckedM.construct f d' r' k'.session = .ok (c', s') → c' = c) ∧
    ∀ d e s, d ∈ k.descriptors → intern d k.session = (e, s) →
      ∀ k', Reaches (k.addDescriptor e s) k' → ∀ d' e' s', d' ∈ k'.descriptors →
        intern d' k'.session = (e', s') → (e'.id = e.id ↔ d'.value = d.value) := by
  have hm := Listing.build_built hl
  obtain ⟨K, D, hkept, -⟩ := Kept.empty.reaches hm hk
  refine ⟨?filed, ?constructed, ?interned⟩
  case filed =>
    intro key c hc
    have hcons := hkept.ordered.filed key c hc
    refine ⟨hcons.function, hkept.ordered.interns _ _ hcons.state, fun v child hv => ?_,
      fun k' hk' => ?_⟩
    · obtain ⟨-, callee, -, -, hbelow⟩ := hcons.child v child hv
      rw [(hkept.ordered.filed _ _ hbelow).key_eq hkept.ordered.interns]
      exact hbelow
    · obtain ⟨-, -, -, he⟩ := hkept.reaches hm hk'
      exact he.contexts key c hc
  case constructed =>
    intro f d r c s hd hrun k' hk' d' r' c' s' hd' hvalue hrun'
    obtain ⟨K₁, D₁, hkept₁, he₁⟩ := hkept.step hm (.context (.construct f r hd) hrun)
    obtain ⟨K₂, D₂, hkept₂, he₂⟩ := hkept₁.reaches hm hk'
    obtain ⟨-, hrun⟩ := ok_of_onFunction hrun
    obtain ⟨-, hrun'⟩ := ok_of_onFunction hrun'
    obtain ⟨D₃, -, hfiled⟩ := construct_keeps hkept.ordered hkept.idle (hkept.known d hd) r
    obtain ⟨D₄, hl', hfiled'⟩ := construct_keeps hkept₂.ordered hkept₂.idle (hkept₂.known d' hd') r'
    rw [hrun] at hfiled
    rw [hrun'] at hfiled' hl'
    -- The first context is still filed when the second one is.
    have hstill := hl'.contexts _ _ (he₂.contexts _ _ hfiled)
    rw [hvalue, hstill] at hfiled'
    exact (Option.some.inj hfiled').symm
  case interned =>
    intro d e s hd hrun k' hk' d' e' s' hd' hrun'
    obtain ⟨K₁, D₁, hkept₁, -⟩ := hkept.step hm (.descriptor (.intern hd) (congrArg Except.ok hrun))
    obtain ⟨K₂, D₂, hkept₂, he₂⟩ := hkept₁.reaches hm hk'
    have he := he₂.trans (intern_extends hrun')
    have hentry := he.interned _ _ (interned_intern hrun)
    have hentry' := interned_intern hrun'
    have hsigned := hkept₂.signed.intern (hkept₂.known d' hd') hrun'
    have hinterns := hkept₂.ordered.interns.intern hrun'
    constructor
    · intro hid
      have heq := hsigned.id_inj e' e (.inr (hinterns _ _ hentry' ▸ hentry'))
        (.inr (hinterns _ _ hentry ▸ hentry)) hid
      rw [← hinterns _ _ hentry', ← hinterns _ _ hentry, heq]
    · intro hvalue
      rw [hvalue, hentry] at hentry'
      rw [Option.some.inj hentry']

/-- Two descriptors with the same facts lead to one context, although it is asked for with
another flag, and are interned as one. -/
theorem shares_forever_directCall : ∃ m, directCall.build = .ok m ∧ ∀ pointsTo,
    ∃ (k : Desk ⟨m, pointsTo⟩) (c c' : Context) (s s' : Session ⟨m, pointsTo⟩), Reaches {} k ∧
      ∃ d ∈ k.descriptors, ∃ d' ∈ k.descriptors, d.id ≠ d'.id ∧
        CheckedM.construct ⟨1⟩ d true k.session = .ok (c, s) ∧
        CheckedM.construct ⟨1⟩ d' false s = .ok (c', s') ∧ c' = c ∧
        (intern d' (intern d k.session).2).1.id = (intern d k.session).1.id := by
  obtain ⟨m, hl, hmain⟩ := Listing.exists_build (l := directCall)
    (p := fun m => (m.function? ⟨1⟩).isSome) (by decide +kernel)
  refine ⟨m, hl, fun pointsTo => ?_⟩
  have hstart := reaches_plain (a := ⟨m, pointsTo⟩) 2
  have hd : plain m 0 ∈ [plain m 1, plain m 0] := by simp
  have hd' : plain m 1 ∈ [plain m 1, plain m 0] := by simp
  obtain ⟨c, s, hrun⟩ := exists_construct (a := ⟨m, pointsTo⟩) hmain (plain m 0) true
    { nextId := 2 }
  obtain ⟨c', s', hrun'⟩ := exists_construct (a := ⟨m, pointsTo⟩) hmain (plain m 1) false s
  obtain ⟨-, hconstructed, hinterned⟩ := shares_forever hl hstart
  have hcontext := hconstructed _ _ _ _ _ hd hrun _ .refl _ _ _ _ hd' rfl hrun'
  have hid := (hinterned _ _ _ hd rfl _ .refl _ _ _ (List.mem_cons_of_mem _ hd') rfl).mpr rfl
  exact ⟨_, c, c', s, s', hstart, _, hd, _, hd', Nat.zero_ne_one, hrun, hrun', hcontext, hid⟩

end Desk

end PmemPaths.Nvm
