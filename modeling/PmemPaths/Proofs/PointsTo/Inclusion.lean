import Mathlib.Data.Set.Basic
import PmemPaths.PointsTo.Solution
import PmemPaths.Proofs.Ir.Draft

/-!
# What a points-to solution has to include

A solution gives a set of objects to every value (`P`) and to the memory of every
object (`C`), and a set of functions to every indirect call (`T`).  `Solves` says,
operation by operation, what these sets have to include.

The constraints of a module say the same about the sets of nodes (`SolvedBy`): the
sets of values and memories, laid out in one row as the nodes are (`row`), solve
the module exactly when they solve its constraints (`solves_iff`).  The objects of a
module are those of its globals, functions, local variables and calls of functions without
a body (`Allocates`), and each is given to the value that makes it.
-/

namespace PmemPaths.PointsTo

open PmemPaths.Ir

variable {m : Module} {P C : ValueId → Set ValueId} {T : ValueId → Set FunctionId}

/-! ## By operations -/

/-- Calling a function passes the arguments to the parameters in the same places, and
what the function returns to the call. -/
structure Binds (m : Module) (P : ValueId → Set ValueId) (f : FunctionId) (call : ValueId)
    (args : List ValueId) : Prop where
  param : ∀ fn (i : Nat) x a, m.function? f = some fn → fn.params[i]? = some x →
    args[i]? = some a → P a ⊆ P x
  result : ∀ v r, v ∈ m.instructionsOf f → m.operation? v = some (.ret (some r)) → P r ⊆ P call

/-- What an operation asks of the sets. -/
def Obeys (m : Module) (P C : ValueId → Set ValueId) (T : ValueId → Set FunctionId)
    (v : ValueId) : Operation → Prop
  | .alloca => v ∈ P v
  | .load p => ∀ o ∈ P p, C o ⊆ P v
  | .store x p => ∀ o ∈ P p, P x ⊆ C o
  | .gep base _ => P base ⊆ P v
  | .cast x => P x ⊆ P v
  | .phi incoming => ∀ x b, (x, b) ∈ incoming → P x ⊆ P v
  | .other xs => ∀ x ∈ xs, P x ⊆ P v
  | .call (.direct f) args => if m.isDefined f then Binds m P f v args else v ∈ P v
  | .call (.indirect p) args => ∀ f fn, m.isDefined f → m.function? f = some fn →
      fn.address ∈ P p → f ∈ T v ∧ Binds m P f v args
  | .ret _ | .branch _ _ | .unreachable => True

/-- The sets are a solution. -/
structure Solves (m : Module) (P C : ValueId → Set ValueId) (T : ValueId → Set FunctionId) :
    Prop where
  global : ∀ v, m.isGlobal v → v ∈ P v
  address : ∀ f fn, m.function? f = some fn → fn.address ∈ P fn.address
  operation : ∀ v op, m.operation? v = some op → Obeys m P C T v op

/-! ## By constraints -/

/-- What a constraint asks of the sets of nodes, where the memory of objects comes
after so many values. -/
def Constraint.HoldsIn (count : Nat) (val : Node → Set ValueId) : Constraint → Prop
  | .alloc x o => o ∈ val x.index
  | .copy x y => val y.index ⊆ val x.index
  | .load x p => ∀ o ∈ val p.index, val (count + o.index) ⊆ val x.index
  | .store p y => ∀ o ∈ val p.index, val y.index ⊆ val (count + o.index)

/-- What an indirect call asks of the sets of nodes. -/
def IndirectCall.HoldsIn (m : Module) (val : Node → Set ValueId) (T : ValueId → Set FunctionId)
    (c : IndirectCall) : Prop :=
  ∀ f fn, m.isDefined f → m.function? f = some fn → fn.address ∈ val c.pointer.index →
    f ∈ T c.call ∧ ∀ x y, (x, y) ∈ bindings m f c.call c.args → val y.index ⊆ val x.index

/-- The sets of nodes solve the constraints. -/
structure ConstraintSet.SolvedBy (m : Module) (s : ConstraintSet) (val : Node → Set ValueId)
    (T : ValueId → Set FunctionId) : Prop where
  holds : ∀ c ∈ s.constraints, c.HoldsIn m.valueCount val
  calls : ∀ c ∈ s.indirectCalls, c.HoldsIn m val T

/-- The sets of values and memories as sets of nodes. -/
def row (m : Module) (P C : ValueId → Set ValueId) (n : Node) : Set ValueId :=
  if n < m.valueCount then P ⟨n⟩ else C ⟨n - m.valueCount⟩

theorem row_value {v : ValueId} (h : v.index < m.valueCount) : row m P C v.index = P v :=
  if_pos h

theorem row_memory {o : ValueId} : row m P C (m.valueCount + o.index) = C o := by
  rw [row, if_neg (Nat.not_lt.mpr (Nat.le_add_right _ _)), Nat.add_sub_cancel_left]

/-! ## Operations and constraints agree -/

theorem mem_returnedValues {f : FunctionId} {r : ValueId} : r ∈ returnedValues m f ↔
    ∃ v ∈ m.instructionsOf f, m.operation? v = some (.ret (some r)) := by
  rw [returnedValues, List.mem_filterMap]
  refine exists_congr fun v => and_congr_right fun _ => ?_
  constructor
  · intro h
    split at h
    · next r' hv => rw [hv, h]
    · cases h
  · intro h
    rw [h]

/-- A call binds parameters to the arguments in the same places, and itself to what is
returned. -/
theorem mem_bindings {f : FunctionId} {call x y : ValueId} {args : List ValueId} :
    (x, y) ∈ bindings m f call args ↔
      (∃ fn, m.function? f = some fn ∧ ∃ i : Nat, fn.params[i]? = some x ∧ args[i]? = some y) ∨
      x = call ∧ y ∈ returnedValues m f := by
  rw [bindings, List.mem_append, List.mem_iff_getElem?]
  refine or_congr ?_ ?_
  · simp only [List.getElem?_zip_eq_some]
    cases m.function? f with
    | none => simp
    | some fn => simp
  · rw [List.mem_map]
    constructor
    · rintro ⟨r, hr, h⟩
      cases h
      exact ⟨rfl, hr⟩
    · rintro ⟨rfl, hr⟩
      exact ⟨y, hr, rfl⟩

theorem binds_iff {f : FunctionId} {call : ValueId} {args : List ValueId} :
    Binds m P f call args ↔ ∀ x y, (x, y) ∈ bindings m f call args → P y ⊆ P x := by
  constructor
  · intro h x y hxy
    rcases mem_bindings.mp hxy with ⟨fn, hf, i, hx, hy⟩ | ⟨rfl, hy⟩
    · exact h.param fn i x y hf hx hy
    · obtain ⟨v, hv, hr⟩ := mem_returnedValues.mp hy
      exact h.result v y hv hr
  · intro h
    refine ⟨fun fn i x a hf hx ha => h x a ?_, fun v r hv hr => h call r ?_⟩
    · exact mem_bindings.mpr (.inl ⟨fn, hf, i, hx, ha⟩)
    · exact mem_bindings.mpr (.inr ⟨rfl, mem_returnedValues.mpr ⟨v, hv, hr⟩⟩)

/-- Instructions have values that exist as operands. -/
def OperandsExist (m : Module) : Prop :=
  ∀ v op, m.operation? v = some op → ∀ x ∈ op.operands, x.index < m.valueCount

theorem index_lt_of_operation? {v : ValueId} {op : Operation} (h : m.operation? v = some op) :
    v.index < m.valueCount := by
  obtain ⟨i, hi, -⟩ := Option.map_eq_some_iff.mp h
  obtain ⟨name, hv⟩ := Module.instruction?_eq_some.mp hi
  exact Module.value?_of_lt hv

/-- Where all operands exist, so does all that a call binds. -/
theorem index_lt_of_mem_bindings (hm : m.Linked) (hops : OperandsExist m) {f : FunctionId}
    {call x y : ValueId} {args : List ValueId} (h : (x, y) ∈ bindings m f call args)
    (hcall : call.index < m.valueCount) (hargs : ∀ a ∈ args, a.index < m.valueCount) :
    x.index < m.valueCount ∧ y.index < m.valueCount := by
  rcases mem_bindings.mp h with ⟨fn, hf, i, hx, hy⟩ | ⟨rfl, hy⟩
  · exact ⟨hm.param f fn hf x (List.mem_of_getElem? hx), hargs y (List.mem_of_getElem? hy)⟩
  · obtain ⟨v, -, hr⟩ := mem_returnedValues.mp hy
    exact ⟨hcall, hops v _ hr y (by simp [Operation.operands])⟩

/-- Parameters, arguments and returned values are values, so their sets are where they
should be. -/
theorem binds_iff_row (hm : m.Linked) (hops : OperandsExist m) {f : FunctionId}
    {call : ValueId} {args : List ValueId} (hcall : call.index < m.valueCount)
    (hargs : ∀ a ∈ args, a.index < m.valueCount) :
    Binds m P f call args ↔ ∀ x y, (x, y) ∈ bindings m f call args →
      row m P C y.index ⊆ row m P C x.index := by
  rw [binds_iff]
  refine forall_congr' fun x => forall_congr' fun y => imp_congr_right fun h => ?_
  obtain ⟨hx, hy⟩ := index_lt_of_mem_bindings hm hops h hcall hargs
  rw [row_value hx, row_value hy]

/-- An operation is obeyed when its constraints hold, or its call does. -/
theorem obeys_iff (hm : m.Linked) (hops : OperandsExist m) {v : ValueId} {op : Operation}
    (h : m.operation? v = some op) :
    Obeys m P C T v op ↔
      (∀ c ∈ instructionConstraints m v, c.HoldsIn m.valueCount (row m P C)) ∧
      ∀ c, indirectCall? m v = some c → c.HoldsIn m (row m P C) T := by
  have hv : row m P C v.index = P v := row_value (index_lt_of_operation? h)
  have hx : ∀ x ∈ op.operands, row m P C x.index = P x := fun x hx => row_value (hops v op h x hx)
  rw [instructionConstraints, indirectCall?, h]
  cases op with
  | alloca => simp [Obeys, Constraint.HoldsIn, hv]
  | load p => simp [Obeys, Constraint.HoldsIn, hv, hx p (by simp [Operation.operands]), row_memory]
  | store x p =>
    simp [Obeys, Constraint.HoldsIn, hx p (by simp [Operation.operands]),
      hx x (by simp [Operation.operands]), row_memory]
  | gep base indices =>
    simp [Obeys, Constraint.HoldsIn, hv, hx base (by simp [Operation.operands])]
  | cast x => simp [Obeys, Constraint.HoldsIn, hv, hx x (by simp [Operation.operands])]
  | phi incoming =>
    have hin : ∀ x b, (x, b) ∈ incoming → row m P C x.index = P x := fun x b hxb =>
      hx x (List.mem_map.mpr ⟨(x, b), hxb, rfl⟩)
    simp only [Obeys, List.mem_map, Prod.exists, reduceCtorEq, false_implies, implies_true,
      and_true]
    constructor
    · rintro hobey c ⟨x, b, hxb, rfl⟩
      rw [Constraint.HoldsIn, hv, hin x b hxb]
      exact hobey x b hxb
    · intro hc x b hxb
      have hcopy := hc _ ⟨x, b, hxb, rfl⟩
      rwa [Constraint.HoldsIn, hv, hin x b hxb] at hcopy
  | other xs =>
    simp only [Obeys, List.mem_map, reduceCtorEq, false_implies, implies_true, and_true]
    constructor
    · rintro hobey c ⟨x, hxs, rfl⟩
      rw [Constraint.HoldsIn, hv, hx x hxs]
      exact hobey x hxs
    · intro hc x hxs
      have hcopy := hc _ ⟨x, hxs, rfl⟩
      rwa [Constraint.HoldsIn, hv, hx x hxs] at hcopy
  | call callee args =>
    cases callee with
    | direct f =>
      have hargs : ∀ a ∈ args, a.index < m.valueCount := fun a ha => hops v _ h a ha
      simp only [Obeys, reduceCtorEq, false_implies, implies_true, and_true]
      split
      · rw [binds_iff_row hm hops (index_lt_of_operation? h) hargs]
        simp only [List.mem_map, Prod.exists]
        constructor
        · rintro hb c ⟨x, y, hxy, rfl⟩
          exact hb x y hxy
        · intro hc x y hxy
          exact hc _ ⟨x, y, hxy, rfl⟩
      · simp [Constraint.HoldsIn, hv]
    | indirect p =>
      have hp : row m P C p.index = P p := hx p List.mem_cons_self
      have hargs : ∀ a ∈ args, a.index < m.valueCount := fun a ha =>
        hops v _ h a (List.mem_cons_of_mem _ ha)
      simp only [Obeys, List.not_mem_nil, false_implies, implies_true, true_and,
        Option.some.injEq, forall_eq', IndirectCall.HoldsIn, hp,
        binds_iff_row (C := C) hm hops (index_lt_of_operation? h) hargs]
  | ret r => simp [Obeys]
  | branch c targets => simp [Obeys]
  | unreachable => simp [Obeys]

/-! ## The constraints of a module -/

theorem operation?_eq_some {v : ValueId} {op : Operation} (h : m.operation? v = some op) :
    ∃ i, m.instruction? v = some i ∧ i.op = op := Option.map_eq_some_iff.mp h

theorem mem_programInstructions (hm : m.Linked) {v : ValueId} :
    v ∈ programInstructions m ↔ ∃ op, m.operation? v = some op := by
  rw [programInstructions, List.mem_flatMap]
  constructor
  · rintro ⟨f, -, hv⟩
    obtain ⟨-, i, hi⟩ := Module.mem_instructionsOf.mp hv
    exact ⟨i.op, by rw [Module.operation?, hi, Option.map_some]⟩
  · rintro ⟨op, h⟩
    obtain ⟨i, hi, -⟩ := operation?_eq_some h
    obtain ⟨f, hf, hv⟩ := hm.mem_instructionsOf hi
    exact ⟨f, Module.mem_definedFunctions.mpr hf, hv⟩

theorem index_lt_of_isGlobal {v : ValueId} (h : m.isGlobal v = true) : v.index < m.valueCount := by
  obtain ⟨w, hw, -⟩ := (Option.any_eq_true _ _).mp h
  exact Module.value?_of_lt hw

theorem mem_globals {v : ValueId} : v ∈ m.globals ↔ m.isGlobal v = true := by
  rw [Module.globals, List.mem_filter, and_iff_right_iff_imp]
  intro h
  exact List.mem_map.mpr ⟨v.index, List.mem_range.mpr (index_lt_of_isGlobal h), rfl⟩

theorem mem_addresses {v : ValueId} :
    v ∈ m.functions.toList.map (·.address) ↔ ∃ f fn, m.function? f = some fn ∧ fn.address = v := by
  rw [List.mem_map]
  constructor
  · rintro ⟨fn, hfn, rfl⟩
    obtain ⟨i, hi⟩ := List.getElem?_of_mem hfn
    exact ⟨⟨i⟩, fn, by simpa [Module.function?] using hi, rfl⟩
  · rintro ⟨f, fn, hf, rfl⟩
    exact ⟨fn, by simpa [Module.function?] using Array.mem_of_getElem? hf, rfl⟩

/-- The sets solve a module when they solve its constraints. -/
theorem solves_iff (hm : m.Linked) (hops : OperandsExist m) :
    Solves m P C T ↔ (ConstraintSet.ofModule m).SolvedBy m (row m P C) T := by
  have hself : ∀ v : ValueId, v.index < m.valueCount →
      ((Constraint.alloc v v).HoldsIn m.valueCount (row m P C) ↔ v ∈ P v) := fun v hv => by
    rw [Constraint.HoldsIn, row_value hv]
  constructor
  · intro h
    refine ⟨fun c hc => ?_, fun c hc => ?_⟩
    · rcases List.mem_append.mp hc with hc | hc
      · obtain ⟨v, hv, rfl⟩ := List.mem_map.mp hc
        rcases List.mem_append.mp hv with hv | hv
        · have hg := mem_globals.mp hv
          exact (hself v (index_lt_of_isGlobal hg)).mpr (h.global v hg)
        · obtain ⟨f, fn, hf, rfl⟩ := mem_addresses.mp hv
          exact (hself _ (hm.address_lt hf)).mpr (h.address f fn hf)
      · obtain ⟨v, hv, hc⟩ := List.mem_flatMap.mp hc
        obtain ⟨op, hop⟩ := (mem_programInstructions hm).mp hv
        exact ((obeys_iff hm hops hop).mp (h.operation v op hop)).1 c hc
    · obtain ⟨v, hv, hc⟩ := List.mem_filterMap.mp hc
      obtain ⟨op, hop⟩ := (mem_programInstructions hm).mp hv
      exact ((obeys_iff hm hops hop).mp (h.operation v op hop)).2 c hc
  · intro h
    refine ⟨fun v hv => ?_, fun f fn hf => ?_, fun v op hop => ?_⟩
    · refine (hself v (index_lt_of_isGlobal hv)).mp (h.holds _ (List.mem_append_left _ ?_))
      exact List.mem_map_of_mem (List.mem_append_left _ (mem_globals.mpr hv))
    · refine (hself _ (hm.address_lt hf)).mp (h.holds _ (List.mem_append_left _ ?_))
      exact List.mem_map_of_mem
        (List.mem_append_right _ (mem_addresses.mpr ⟨f, fn, hf, rfl⟩))
    · have hv := (mem_programInstructions hm).mpr ⟨op, hop⟩
      refine (obeys_iff hm hops hop).mpr ⟨fun c hc => h.holds c ?_, fun c hc => h.calls c ?_⟩
      · exact List.mem_append_right _ (List.mem_flatMap.mpr ⟨v, hv, hc⟩)
      · exact List.mem_filterMap.mpr ⟨v, hv, hc⟩

/-! ## Objects -/

/-- The values that make an object and point to it. -/
inductive Allocates (m : Module) : ValueId → Prop
  | global {v : ValueId} : m.isGlobal v = true → Allocates m v
  | address {f : FunctionId} {fn : Function} : m.function? f = some fn → Allocates m fn.address
  | alloca {v : ValueId} : m.operation? v = some .alloca → Allocates m v
  /-- A call of a function without a body. -/
  | external {v : ValueId} {f : FunctionId} {args : List ValueId} :
      m.operation? v = some (.call (.direct f) args) → m.isDefined f = false → Allocates m v

theorem Allocates.index_lt (hm : m.Linked) {v : ValueId} (h : Allocates m v) :
    v.index < m.valueCount := by
  cases h with
  | global hv => exact index_lt_of_isGlobal hv
  | address hf => exact hm.address_lt hf
  | alloca hop | external hop _ => exact index_lt_of_operation? hop

/-- What makes an object is an allocation site. -/
theorem Allocates.isAllocationSite (hm : m.Linked) {v : ValueId} (h : Allocates m v) :
    m.isAllocationSite v = true := by
  have hinst : ∀ op, m.operation? v = some op → (op = .alloca ∨ op.isCall = true) →
      m.isAllocationSite v = true := by
    intro op hop hsite
    obtain ⟨i, hi, rfl⟩ := operation?_eq_some hop
    obtain ⟨name, hv⟩ := Module.instruction?_eq_some.mp hi
    rw [Module.isAllocationSite, hv]
    simpa using hsite
  cases h with
  | global hv =>
    obtain ⟨w, hw, hkind⟩ := (Option.any_eq_true _ _).mp hv
    obtain ⟨kind, name⟩ := w
    obtain rfl : kind = .global := of_decide_eq_true hkind
    rw [Module.isAllocationSite, hw]
  | address hf =>
    obtain ⟨name, hv⟩ := hm.address _ _ hf
    rw [Module.isAllocationSite, hv]
  | alloca hop => exact hinst _ hop (.inl rfl)
  | external hop _ => exact hinst _ hop (.inr rfl)

/-- An instruction makes no object but its own. -/
theorem alloc_mem_instructionConstraints {v x o : ValueId} :
    .alloc x o ∈ instructionConstraints m v ↔ x = v ∧ o = v ∧ (m.operation? v = some .alloca ∨
      ∃ f args, m.operation? v = some (.call (.direct f) args) ∧ m.isDefined f = false) := by
  rw [instructionConstraints]
  cases m.operation? v with
  | none => simp
  | some op =>
    cases op with
    | call callee args =>
      cases callee with
      | direct f => cases hdef : m.isDefined f <;> simp [hdef]
      | indirect p => simp
    | alloca | load p | store x p | gep base indices | cast x | phi incoming | other xs | ret r
    | branch c targets | unreachable => simp

/-- The objects of a module, each given to the value that makes it. -/
theorem alloc_mem_constraints (hm : m.Linked) {x o : ValueId} :
    .alloc x o ∈ (ConstraintSet.ofModule m).constraints ↔ x = o ∧ Allocates m o := by
  constructor
  · intro h
    rcases List.mem_append.mp h with h | h
    · obtain ⟨v, hv, heq⟩ := List.mem_map.mp h
      cases heq
      rcases List.mem_append.mp hv with hv | hv
      · exact ⟨rfl, .global (mem_globals.mp hv)⟩
      · obtain ⟨f, fn, hf, rfl⟩ := mem_addresses.mp hv
        exact ⟨rfl, .address hf⟩
    · obtain ⟨v, -, hc⟩ := List.mem_flatMap.mp h
      obtain ⟨rfl, rfl, hop | ⟨f, args, hop, hdef⟩⟩ := alloc_mem_instructionConstraints.mp hc
      · exact ⟨rfl, .alloca hop⟩
      · exact ⟨rfl, .external hop hdef⟩
  · rintro ⟨rfl, h⟩
    have hself : ∀ v, v ∈ m.globals ++ m.functions.toList.map (·.address) →
        .alloc v v ∈ (ConstraintSet.ofModule m).constraints := fun v hv =>
      List.mem_append_left _ (List.mem_map_of_mem hv)
    have hinst : ∀ op, m.operation? x = some op → .alloc x x ∈ instructionConstraints m x →
        .alloc x x ∈ (ConstraintSet.ofModule m).constraints := fun op hop hc =>
      List.mem_append_right _
        (List.mem_flatMap.mpr ⟨x, (mem_programInstructions hm).mpr ⟨op, hop⟩, hc⟩)
    cases h with
    | global hv => exact hself _ (List.mem_append_left _ (mem_globals.mpr hv))
    | address hf => exact hself _ (List.mem_append_right _ (mem_addresses.mpr ⟨_, _, hf, rfl⟩))
    | alloca hop => exact hinst _ hop (alloc_mem_instructionConstraints.mpr ⟨rfl, rfl, .inl hop⟩)
    | external hop hdef =>
      exact hinst _ hop (alloc_mem_instructionConstraints.mpr ⟨rfl, rfl, .inr ⟨_, _, hop, hdef⟩⟩)

end PmemPaths.PointsTo
