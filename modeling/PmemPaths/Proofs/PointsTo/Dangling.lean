import PmemPaths.Proofs.Ir.ControlFlow
import PmemPaths.Proofs.PointsTo.Stopped

/-!
# Operands that are no values

An operand may have a number behind the values.  To the constraints it is a node like others.
The nodes behind the values are the memory of the objects, so such an operand can be the
memory of a variable, and a cast of it reads what is stored there.  Where no operand is the
memory of an object, the module points to the same as with constants for all of them: solutions
of the constraints of either module are carried over to the other.
-/

namespace PmemPaths.Ir

variable {m : Module} {ρ : ValueId → ValueId} {constants : List String} {v x : ValueId}
  {f : FunctionId}

/-! ## Other operands -/

/-- The operation with other operands. -/
def Operation.rename (ρ : ValueId → ValueId) : Operation → Operation
  | .alloca => .alloca
  | .load p => .load (ρ p)
  | .store x p => .store (ρ x) (ρ p)
  | .gep base indices => .gep (ρ base) (indices.map ρ)
  | .cast x => .cast (ρ x)
  | .phi incoming => .phi (incoming.map fun (x, b) => (ρ x, b))
  | .call (.direct f) args => .call (.direct f) (args.map ρ)
  | .call (.indirect p) args => .call (.indirect (ρ p)) (args.map ρ)
  | .ret x => .ret (x.map ρ)
  | .branch condition targets => .branch (condition.map ρ) targets
  | .unreachable => .unreachable
  | .other xs => .other (xs.map ρ)

/-- The instruction with other operands. -/
def Instruction.rename (ρ : ValueId → ValueId) (i : Instruction) : Instruction :=
  { i with op := i.op.rename ρ }

/-- The value with other operands, if it is an instruction. -/
def Value.rename (ρ : ValueId → ValueId) : Value → Value
  | ⟨.instruction i, name⟩ => ⟨.instruction (i.rename ρ), name⟩
  | w => w

namespace Module

/-- The module with other operands and with more constants. -/
def rename (m : Module) (ρ : ValueId → ValueId) (constants : List String) : Module :=
  { m with
    values := m.values.map (Value.rename ρ) ++ (constants.map (Value.mk .constant)).toArray }

/-- Values stay what they are, and what is no value becomes one of the added constants. -/
structure Fills (m : Module) (ρ : ValueId → ValueId) (constants : List String) : Prop where
  value : ∀ x, x.index < m.valueCount → ρ x = x
  missing : ∀ x, m.valueCount ≤ x.index →
    m.valueCount ≤ (ρ x).index ∧ (ρ x).index < m.valueCount + constants.length

/-- An instruction has the operand. -/
def reads (m : Module) (x : ValueId) : Bool :=
  m.valueIds.any fun v => (m.operation? v).any fun op => op.operands.contains x

theorem reads_of_mem {op : Operation} (h : m.operation? v = some op) (hx : x ∈ op.operands) :
    m.reads x = true := by
  obtain ⟨i, hi, -⟩ := Option.map_eq_some_iff.mp h
  obtain ⟨name, hv⟩ := instruction?_eq_some.mp hi
  refine List.any_eq_true.mpr ⟨v, List.mem_map.mpr ⟨v.index, ?_, rfl⟩, ?_⟩
  · exact List.mem_range.mpr (value?_of_lt hv)
  · rw [h]
    exact List.contains_iff_mem.mpr hx

theorem valueCount_rename :
    (m.rename ρ constants).valueCount = m.valueCount + constants.length := by
  simp [valueCount, rename]

theorem index_lt_rename (h : v.index < m.valueCount) :
    v.index < (m.rename ρ constants).valueCount := by
  rw [valueCount_rename]
  exact Nat.lt_add_right _ h

/-- A value that is there keeps its place, with other operands if it is an instruction. -/
theorem value?_rename (h : v.index < m.valueCount) :
    (m.rename ρ constants).value? v = (m.value? v).map (Value.rename ρ) := by
  rw [valueCount] at h
  simp [value?, rename, Array.getElem?_append, h]

theorem value?_of_le (h : m.valueCount ≤ v.index) : m.value? v = none :=
  Array.getElem?_eq_none h

/-- Behind the values there are constants. -/
theorem value?_rename_of_le (h : m.valueCount ≤ v.index) : (m.rename ρ constants).value? v =
    (constants[v.index - m.valueCount]?).map (Value.mk .constant) := by
  rw [valueCount] at h
  simp [value?, rename, Array.getElem?_append, valueCount, Nat.not_lt.mpr h]

theorem instruction?_rename :
    (m.rename ρ constants).instruction? v = (m.instruction? v).map (Instruction.rename ρ) := by
  rw [instruction?, instruction?]
  rcases Nat.lt_or_ge v.index m.valueCount with h | h
  · rw [value?_rename h]
    rcases m.value? v with _ | ⟨_ | _ | _ | _ | _, name⟩ <;> rfl
  · rw [value?_of_le h, value?_rename_of_le h]
    cases constants[v.index - m.valueCount]? <;> rfl

theorem operation?_rename :
    (m.rename ρ constants).operation? v = (m.operation? v).map (Operation.rename ρ) := by
  rw [operation?, operation?, instruction?_rename]
  cases m.instruction? v <;> rfl

theorem isGlobal_rename : (m.rename ρ constants).isGlobal v = m.isGlobal v := by
  rw [isGlobal, isGlobal]
  rcases Nat.lt_or_ge v.index m.valueCount with h | h
  · rw [value?_rename h]
    rcases m.value? v with _ | ⟨_ | _ | _ | _ | _, name⟩ <;> rfl
  · rw [value?_of_le h, value?_rename_of_le h]
    cases constants[v.index - m.valueCount]? <;> rfl

theorem instructionsOf_rename : (m.rename ρ constants).instructionsOf f = m.instructionsOf f := by
  have hinsts : ((m.rename ρ constants).blocksOf f).flatMap (m.rename ρ constants).instsOf =
    (m.blocksOf f).flatMap m.instsOf := rfl
  rw [instructionsOf, instructionsOf, hinsts]
  refine List.filter_congr fun v _ => ?_
  rw [instruction?_rename, Option.isSome_map]

theorem isDefined_rename : (m.rename ρ constants).isDefined f = m.isDefined f := rfl

/-- Links are of functions, blocks and instructions, and do not look at operands. -/
theorem Linked.rename (h : m.Linked) : (m.rename ρ constants).Linked where
  address f fn hf := by
    obtain ⟨name, hv⟩ := h.address f fn hf
    exact ⟨name, by rw [value?_rename (h.address_lt hf), hv]; rfl⟩
  param f fn hf x hx := index_lt_rename (h.param f fn hf x hx)
  block := h.block
  instruction v i hi := by
    rw [instruction?_rename] at hi
    obtain ⟨j, hj, rfl⟩ := Option.map_eq_some_iff.mp hi
    exact h.instruction v j hj

end Module

end PmemPaths.Ir

namespace PmemPaths.PointsTo

open PmemPaths.Ir

variable {m : Module} {ρ : ValueId → ValueId} {constants : List String} {v x y call : ValueId}
  {f : FunctionId} {args : List ValueId}

/-! ## Constraints with other operands -/

/-- The constraint with another source, and of a store also another pointer. -/
def Constraint.rename (ρ : ValueId → ValueId) : Constraint → Constraint
  | .alloc x o => .alloc x o
  | .copy x y => .copy x (ρ y)
  | .load x p => .load x (ρ p)
  | .store p y => .store (ρ p) (ρ y)

/-- The call with other operands. -/
def IndirectCall.rename (ρ : ValueId → ValueId) (c : IndirectCall) : IndirectCall :=
  { c with pointer := ρ c.pointer, args := c.args.map ρ }

theorem returnedValues_rename :
    returnedValues (m.rename ρ constants) f = (returnedValues m f).map ρ := by
  rw [returnedValues, returnedValues, Module.instructionsOf_rename, List.map_filterMap]
  refine List.filterMap_congr fun v _ => ?_
  rw [Module.operation?_rename]
  rcases m.operation? v with _ | op
  · rfl
  · cases op with
    | call callee args => cases callee <;> rfl
    | _ => rfl

theorem bindings_rename : bindings (m.rename ρ constants) f call (args.map ρ) =
    (bindings m f call args).map fun (x, y) => (x, ρ y) := by
  rw [bindings, bindings, returnedValues_rename]
  have hf : (m.rename ρ constants).function? f = m.function? f := rfl
  simp [hf, List.zip_map_right, Function.comp_def]

theorem instructionConstraints_rename : instructionConstraints (m.rename ρ constants) v =
    (instructionConstraints m v).map (Constraint.rename ρ) := by
  rw [instructionConstraints, instructionConstraints, Module.operation?_rename]
  rcases m.operation? v with _ | op
  · rfl
  · cases op with
    | call callee args =>
      cases callee with
      | direct f =>
        simp only [Option.map_some, Operation.rename, Module.isDefined_rename, bindings_rename]
        split
        · simp [Constraint.rename, Function.comp_def]
        · rfl
      | indirect p => rfl
    | phi incoming => simp [Operation.rename, Constraint.rename, Function.comp_def]
    | other xs => simp [Operation.rename, Constraint.rename, Function.comp_def]
    | _ => rfl

theorem indirectCall?_rename : indirectCall? (m.rename ρ constants) v =
    (indirectCall? m v).map (IndirectCall.rename ρ) := by
  rw [indirectCall?, indirectCall?, Module.operation?_rename]
  rcases m.operation? v with _ | op
  · rfl
  · cases op with
    | call callee args => cases callee <;> rfl
    | _ => rfl

theorem programInstructions_rename :
    programInstructions (m.rename ρ constants) = programInstructions m := by
  rw [programInstructions, programInstructions]
  exact List.flatMap_congr fun f _ => Module.instructionsOf_rename

/-- Renaming the operands of a module renames those of its constraints. -/
theorem mem_constraints_rename {c : Constraint} :
    c ∈ (ConstraintSet.ofModule (m.rename ρ constants)).constraints ↔
      ∃ d ∈ (ConstraintSet.ofModule m).constraints, d.rename ρ = c := by
  have hself : ∀ v, v ∈ (m.rename ρ constants).globals ++
      (m.rename ρ constants).functions.toList.map (·.address) ↔
      v ∈ m.globals ++ m.functions.toList.map (·.address) := fun v => by
    rw [List.mem_append, List.mem_append, mem_globals, mem_globals, Module.isGlobal_rename]
    rfl
  simp only [ConstraintSet.ofModule, List.mem_append, or_and_right, exists_or]
  refine or_congr ?_ ?_
  · simp only [List.mem_map, hself]
    constructor
    · rintro ⟨v, hv, rfl⟩
      exact ⟨_, ⟨v, hv, rfl⟩, rfl⟩
    · rintro ⟨-, ⟨v, hv, rfl⟩, rfl⟩
      exact ⟨v, hv, rfl⟩
  · simp only [programInstructions_rename, instructionConstraints_rename, List.mem_flatMap,
      List.mem_map]
    constructor
    · rintro ⟨v, hv, d, hd, rfl⟩
      exact ⟨d, ⟨v, hv, hd⟩, rfl⟩
    · rintro ⟨d, ⟨v, hv, hd⟩, rfl⟩
      exact ⟨v, hv, d, hd, rfl⟩

theorem indirectCalls_rename : (ConstraintSet.ofModule (m.rename ρ constants)).indirectCalls =
    (ConstraintSet.ofModule m).indirectCalls.map (IndirectCall.rename ρ) := by
  simp only [ConstraintSet.ofModule, programInstructions_rename, List.map_filterMap]
  exact List.filterMap_congr fun v _ => indirectCall?_rename

theorem Allocates.of_rename (hm : m.Linked) (h : Allocates (m.rename ρ constants) v) :
    Allocates m v := by
  obtain ⟨d, hd, heq⟩ := mem_constraints_rename.mp ((alloc_mem_constraints hm.rename).mpr ⟨rfl, h⟩)
  cases d with
  | alloc x o =>
    cases heq
    exact ((alloc_mem_constraints hm).mp hd).2
  | copy x y | load x p | store p y => cases heq

/-! ## Solutions that follow each other -/

/-- The same constraint with other operands.  Its target is one of the first values. -/
inductive Constraint.Matches (bound : Nat) (R : ValueId → ValueId → Prop) :
    Constraint → Constraint → Prop
  | alloc {x o : ValueId} : x.index < bound → Matches bound R (.alloc x o) (.alloc x o)
  | copy {x y y' : ValueId} : x.index < bound → R y y' → Matches bound R (.copy x y) (.copy x y')
  | load {x p p' : ValueId} : x.index < bound → R p p' → Matches bound R (.load x p) (.load x p')
  | store {p p' y y' : ValueId} : R p p' → R y y' → Matches bound R (.store p y) (.store p' y')

/-- The same call with other operands. -/
structure IndirectCall.Matches (m m' : Module) (bound : Nat) (R : ValueId → ValueId → Prop)
    (c c' : IndirectCall) : Prop where
  call : c.call = c'.call
  pointer : R c.pointer c'.pointer
  bindings : ∀ f x y', (x, y') ∈ bindings m' f c'.call c'.args →
    x.index < bound ∧ ∃ y, (x, y) ∈ bindings m f c.call c.args ∧ R y y'

/-- Sets of nodes that agree with others on the first values and on the memory of all
objects, and have no more for other operands. -/
structure Follows (count count' bound : Nat) (R : ValueId → ValueId → Prop)
    (val val' : Node → Set ValueId) : Prop where
  value : ∀ i < bound, val i = val' i
  operand : ∀ y y', R y y' → val' y'.index ⊆ val y.index
  memory : ∀ i, ∀ o ∈ val i, val (count + o.index) = val' (count' + o.index)

section Follows

variable {m' : Module} {bound count count' : Nat} {R : ValueId → ValueId → Prop}
  {val val' : Node → Set ValueId} {T : ValueId → Set FunctionId}

theorem Constraint.Matches.symm {c c' : Constraint} (h : c.Matches bound R c') :
    c'.Matches bound (fun y y' => R y' y) c := by
  cases h with
  | alloc hx => exact .alloc hx
  | copy hx hy => exact .copy hx hy
  | load hx hp => exact .load hx hp
  | store hp hy => exact .store hp hy

/-- A constraint that holds also holds of sets that follow, with operands that match. -/
theorem Follows.holdsIn (hf : Follows count count' bound R val val') {c c' : Constraint}
    (hc : c.Matches bound R c') (h : c.HoldsIn count val) : c'.HoldsIn count' val' := by
  cases hc with
  | alloc hx =>
    rw [Constraint.HoldsIn, ← hf.value _ hx]
    exact h
  | copy hx hy =>
    rw [Constraint.HoldsIn, ← hf.value _ hx]
    exact (hf.operand _ _ hy).trans h
  | load hx hp =>
    intro o ho
    have hop := hf.operand _ _ hp ho
    rw [← hf.value _ hx, ← hf.memory _ o hop]
    exact h o hop
  | store hp hy =>
    intro o ho
    have hop := hf.operand _ _ hp ho
    rw [← hf.memory _ o hop]
    exact (hf.operand _ _ hy).trans (h o hop)

/-- What follows a solution solves the same constraints with other operands. -/
theorem ConstraintSet.SolvedBy.follow (hk : (ConstraintSet.ofModule m).SolvedBy m val T)
    (hf : Follows m.valueCount m'.valueCount bound R val val') (hfun : m'.functions = m.functions)
    (hconstraints : ∀ c' ∈ (ConstraintSet.ofModule m').constraints,
      ∃ c ∈ (ConstraintSet.ofModule m).constraints, c.Matches bound R c')
    (hcalls : ∀ c' ∈ (ConstraintSet.ofModule m').indirectCalls,
      ∃ c ∈ (ConstraintSet.ofModule m).indirectCalls, c.Matches m m' bound R c') :
    (ConstraintSet.ofModule m').SolvedBy m' val' T where
  holds c' hc' := by
    obtain ⟨c, hc, hmatch⟩ := hconstraints c' hc'
    exact hf.holdsIn hmatch (hk.holds c hc)
  calls c' hc' f fn hdef hfn ho := by
    obtain ⟨c, hc, hmatch⟩ := hcalls c' hc'
    rw [Module.isDefined, Module.function?, hfun] at hdef
    rw [Module.function?, hfun] at hfn
    obtain ⟨htarget, hbind⟩ := hk.calls c hc f fn hdef hfn (hf.operand _ _ hmatch.pointer ho)
    rw [hmatch.call] at htarget
    refine ⟨htarget, fun x y' hxy => ?_⟩
    obtain ⟨hx, y, hxy, hy⟩ := hmatch.bindings f x y' hxy
    rw [← hf.value _ hx]
    exact (hf.operand _ _ hy).trans (hbind x y hxy)

end Follows

/-! ## Constraints of a module match those with other operands -/

/-- An operand and what it becomes. -/
def Renamed (m : Module) (ρ : ValueId → ValueId) (y y' : ValueId) : Prop :=
  m.reads y = true ∧ ρ y = y'

theorem of_mem_bindings (hm : m.Linked) (h : (x, y) ∈ bindings m f call args)
    (hcall : call.index < m.valueCount) (hargs : ∀ a ∈ args, m.reads a = true) :
    x.index < m.valueCount ∧ m.reads y = true := by
  rcases mem_bindings.mp h with ⟨fn, hf, i, hx, hy⟩ | ⟨rfl, hy⟩
  · exact ⟨hm.param f fn hf x (List.mem_of_getElem? hx), hargs y (List.mem_of_getElem? hy)⟩
  · obtain ⟨v, -, hr⟩ := mem_returnedValues.mp hy
    exact ⟨hcall, Module.reads_of_mem hr (by simp [Operation.operands])⟩

theorem matches_of_mem_instructionConstraints (hm : m.Linked) {c : Constraint}
    (h : c ∈ instructionConstraints m v) :
    c.Matches m.valueCount (Renamed m ρ) (c.rename ρ) := by
  rw [instructionConstraints] at h
  cases hop : m.operation? v with
  | none =>
    rw [hop] at h
    cases h
  | some op =>
    rw [hop] at h
    have hv := index_lt_of_operation? hop
    have hreads : ∀ x ∈ op.operands, Renamed m ρ x (ρ x) := fun x hx =>
      ⟨Module.reads_of_mem hop hx, rfl⟩
    cases op with
    | alloca =>
      cases List.mem_singleton.mp h
      exact .alloc hv
    | load p =>
      cases List.mem_singleton.mp h
      exact .load hv (hreads p (by simp [Operation.operands]))
    | store x p =>
      cases List.mem_singleton.mp h
      exact .store (hreads p (by simp [Operation.operands]))
        (hreads x (by simp [Operation.operands]))
    | gep base indices =>
      cases List.mem_singleton.mp h
      exact .copy hv (hreads base (by simp [Operation.operands]))
    | cast x =>
      cases List.mem_singleton.mp h
      exact .copy hv (hreads x (by simp [Operation.operands]))
    | phi incoming =>
      obtain ⟨⟨x, b⟩, hx, rfl⟩ := List.mem_map.mp h
      exact .copy hv (hreads x (List.mem_map.mpr ⟨(x, b), hx, rfl⟩))
    | other xs =>
      obtain ⟨x, hx, rfl⟩ := List.mem_map.mp h
      exact .copy hv (hreads x hx)
    | call callee args =>
      cases callee with
      | direct f =>
        dsimp only at h
        split at h
        · obtain ⟨⟨x, y⟩, hxy, rfl⟩ := List.mem_map.mp h
          obtain ⟨hx, hy⟩ := of_mem_bindings hm hxy hv fun a ha => (hreads a ha).1
          exact .copy hx ⟨hy, rfl⟩
        · cases List.mem_singleton.mp h
          exact .alloc hv
      | indirect p => cases h
    | ret r | branch condition targets | unreachable => cases h

theorem matches_rename (hm : m.Linked) {c : Constraint}
    (h : c ∈ (ConstraintSet.ofModule m).constraints) :
    c.Matches m.valueCount (Renamed m ρ) (c.rename ρ) := by
  rcases List.mem_append.mp h with hc | hc
  · obtain ⟨v, -, rfl⟩ := List.mem_map.mp hc
    exact .alloc (((alloc_mem_constraints hm).mp h).2.index_lt hm)
  · obtain ⟨v, -, hc⟩ := List.mem_flatMap.mp hc
    exact matches_of_mem_instructionConstraints hm hc

/-- What an indirect call says of itself, its arguments and its pointer. -/
theorem of_mem_indirectCalls {c : IndirectCall} (h : c ∈ (ConstraintSet.ofModule m).indirectCalls) :
    c.call.index < m.valueCount ∧ m.reads c.pointer = true ∧ ∀ a ∈ c.args, m.reads a = true := by
  obtain ⟨v, -, hv⟩ := List.mem_filterMap.mp h
  rw [indirectCall?] at hv
  split at hv
  · next p args hop =>
    cases hv
    exact ⟨index_lt_of_operation? hop, Module.reads_of_mem hop List.mem_cons_self,
      fun a ha => Module.reads_of_mem hop (List.mem_cons_of_mem _ ha)⟩
  · cases hv

theorem call_matches_rename (hm : m.Linked) {c : IndirectCall}
    (h : c ∈ (ConstraintSet.ofModule m).indirectCalls) :
    c.Matches m (m.rename ρ constants) m.valueCount (Renamed m ρ) (c.rename ρ) where
  call := rfl
  pointer := ⟨(of_mem_indirectCalls h).2.1, rfl⟩
  bindings f x y' hxy := by
    obtain ⟨hcall, -, hargs⟩ := of_mem_indirectCalls h
    rw [IndirectCall.rename, bindings_rename] at hxy
    obtain ⟨⟨z, y⟩, hzy, heq⟩ := List.mem_map.mp hxy
    cases heq
    obtain ⟨hx, hy⟩ := of_mem_bindings hm hzy hcall hargs
    exact ⟨hx, y, hzy, hy, rfl⟩

theorem rename_matches_call (hm : m.Linked) {c : IndirectCall}
    (h : c ∈ (ConstraintSet.ofModule m).indirectCalls) :
    (c.rename ρ).Matches (m.rename ρ constants) m m.valueCount
      (fun y y' => Renamed m ρ y' y) c where
  call := rfl
  pointer := ⟨(of_mem_indirectCalls h).2.1, rfl⟩
  bindings f x y hxy := by
    obtain ⟨hcall, -, hargs⟩ := of_mem_indirectCalls h
    obtain ⟨hx, hy⟩ := of_mem_bindings hm hxy hcall hargs
    refine ⟨hx, ρ y, ?_, hy, rfl⟩
    rw [IndirectCall.rename, bindings_rename]
    exact List.mem_map.mpr ⟨(x, y), hxy, rfl⟩

/-! ## Solutions with and without the operands that are no values -/

section Fills

variable {val : Node → Set ValueId} {T : ValueId → Set FunctionId}

/-- Sets of nodes, with nothing for so many constants behind the values. -/
def raised (count added : Nat) (val : Node → Set ValueId) (i : Node) : Set ValueId :=
  if i < count then val i else if i < count + added then ∅ else val (i - added)

/-- Sets of nodes without those of the constants.  Nodes that are the memory of no object
get nothing. -/
def lowered (m : Module) (added : Nat) (val : Node → Set ValueId) (i : Node) : Set ValueId :=
  if i < m.valueCount then val i else {o | o ∈ val (i + added) ∧ Allocates m ⟨i - m.valueCount⟩}

/-- An operand that becomes a constant has nothing then, which is no more than it had. -/
theorem follows_raised (hρ : m.Fills ρ constants) :
    Follows m.valueCount (m.rename ρ constants).valueCount m.valueCount (Renamed m ρ) val
      (raised m.valueCount constants.length val) where
  value i hi := (if_pos hi).symm
  operand := by
    rintro y - ⟨-, rfl⟩
    rcases Nat.lt_or_ge y.index m.valueCount with hy | hy
    · rw [hρ.value y hy, raised, if_pos hy]
    · obtain ⟨hle, hlt⟩ := hρ.missing y hy
      rw [raised, if_neg (Nat.not_lt.mpr hle), if_pos hlt]
      exact Set.empty_subset _
  memory i o _ := by
    have hvalue : ¬m.valueCount + constants.length + o.index < m.valueCount := by omega
    have hconstant : ¬m.valueCount + constants.length + o.index <
      m.valueCount + constants.length := by omega
    have hnode : m.valueCount + constants.length + o.index - constants.length =
      m.valueCount + o.index := by omega
    rw [Module.valueCount_rename, raised, if_neg hvalue, if_neg hconstant, hnode]

/-- An operand that is no value is the memory of no object, so it gets nothing. -/
theorem follows_lowered (hρ : m.Fills ρ constants)
    (hapart : ∀ o, Allocates m o → m.reads ⟨m.valueCount + o.index⟩ = false)
    (hobjects : ∀ i, ∀ o ∈ val i, Allocates m o) :
    Follows (m.rename ρ constants).valueCount m.valueCount m.valueCount
      (fun y y' => Renamed m ρ y' y) val (lowered m constants.length val) where
  value i hi := (if_pos hi).symm
  operand := by
    rintro - y ⟨hy, rfl⟩
    rcases Nat.lt_or_ge y.index m.valueCount with hlt | hle
    · rw [hρ.value y hlt, lowered, if_pos hlt]
    · rw [lowered, if_neg (Nat.not_lt.mpr hle)]
      rintro o ⟨-, halloc⟩
      have hnot := hapart _ halloc
      rw [Nat.add_sub_cancel' hle, hy] at hnot
      cases hnot
  memory i o ho := by
    have halloc := hobjects i o ho
    have hvalue : ¬m.valueCount + o.index < m.valueCount := by omega
    have hnode : m.valueCount + o.index + constants.length =
      m.valueCount + constants.length + o.index := by omega
    rw [Module.valueCount_rename, lowered, if_neg hvalue, hnode, Nat.add_sub_cancel_left]
    exact Set.ext fun a => (and_iff_left halloc).symm

theorem solvedBy_raised (hm : m.Linked) (hρ : m.Fills ρ constants)
    (hk : (ConstraintSet.ofModule m).SolvedBy m val T) :
    (ConstraintSet.ofModule (m.rename ρ constants)).SolvedBy (m.rename ρ constants)
      (raised m.valueCount constants.length val) T := by
  refine hk.follow (follows_raised hρ) rfl (fun c' hc' => ?_) fun c' hc' => ?_
  · obtain ⟨c, hc, rfl⟩ := mem_constraints_rename.mp hc'
    exact ⟨c, hc, matches_rename hm hc⟩
  · rw [indirectCalls_rename] at hc'
    obtain ⟨c, hc, rfl⟩ := List.mem_map.mp hc'
    exact ⟨c, hc, call_matches_rename hm hc⟩

theorem solvedBy_lowered (hm : m.Linked) (hρ : m.Fills ρ constants)
    (hapart : ∀ o, Allocates m o → m.reads ⟨m.valueCount + o.index⟩ = false)
    (hobjects : ∀ i, ∀ o ∈ val i, Allocates m o)
    (hk : (ConstraintSet.ofModule (m.rename ρ constants)).SolvedBy (m.rename ρ constants) val T) :
    (ConstraintSet.ofModule m).SolvedBy m (lowered m constants.length val) T := by
  refine hk.follow (follows_lowered hρ hapart hobjects) rfl (fun c hc => ?_) fun c hc => ?_
  · exact ⟨c.rename ρ, mem_constraints_rename.mpr ⟨c, hc, rfl⟩, (matches_rename hm hc).symm⟩
  · refine ⟨c.rename ρ, ?_, rename_matches_call hm hc⟩
    rw [indirectCalls_rename]
    exact List.mem_map_of_mem hc

end Fills

namespace Solution

variable {val : Node → Set ValueId} {T : ValueId → Set FunctionId}

/-- What is found of all nodes, operands that are no values among them, is within every
solution. -/
theorem nodeSets_subset (share : Bool) (hm : m.Linked)
    (hk : (ConstraintSet.ofModule m).SolvedBy m val T) :
    (∀ i, nodeSets m share i ⊆ val i) ∧
      ∀ c, ∀ f ∈ (unlimited m share).indirectTargets c, f ∈ T c := by
  refine ⟨fun i o ho => ?_, fun c f hf => ?_⟩
  · rw [← hk.representative share]
    exact (below_unlimited hm hk).objects _ o ho
  · exact (below_unlimited hm hk).resolved c f (mem_indirectTargets.mp hf)

/-- What is found with constants is found without. -/
theorem subset_of_rename (share share' : Bool) (hm : m.Linked) (hρ : m.Fills ρ constants) :
    (∀ v, v.index < m.valueCount → ∀ o ∈ (unlimited (m.rename ρ constants) share').pointsTo v,
      o ∈ (unlimited m share).pointsTo v) ∧
    ∀ c, ∀ f ∈ (unlimited (m.rename ρ constants) share').indirectTargets c,
      f ∈ (unlimited m share).indirectTargets c := by
  obtain ⟨hpoints, htargets⟩ := nodeSets_subset share' (Module.Linked.rename hm)
    (solvedBy_raised hm hρ (@solvedBy_unlimited m share hm))
  refine ⟨fun v hv o ho => ?_, htargets⟩
  have hnode := hpoints v.index ((mem_pointsTo_iff (Module.index_lt_rename hv)).mp ho)
  rw [raised, if_pos hv] at hnode
  exact (mem_pointsTo_iff hv).mpr hnode

/-- Where no operand is the memory of an object, what is found is found with constants. -/
theorem subset_rename (share share' : Bool) (hm : m.Linked) (hρ : m.Fills ρ constants)
    (hapart : ∀ o, Allocates m o → m.reads ⟨m.valueCount + o.index⟩ = false) :
    (∀ v, v.index < m.valueCount → ∀ o ∈ (unlimited m share).pointsTo v,
      o ∈ (unlimited (m.rename ρ constants) share').pointsTo v) ∧
    ∀ c, ∀ f ∈ (unlimited m share).indirectTargets c,
      f ∈ (unlimited (m.rename ρ constants) share').indirectTargets c := by
  have hm' : (m.rename ρ constants).Linked := hm.rename
  have hobjects : ∀ i, ∀ o ∈ nodeSets (m.rename ρ constants) share' i, Allocates m o :=
    fun i o ho => ((nodeSets_subset share' hm' (solvedBy_allocates hm')).1 i ho).of_rename hm
  obtain ⟨hpoints, htargets⟩ := nodeSets_subset share hm
    (solvedBy_lowered hm hρ hapart hobjects (solvedBy_unlimited hm'))
  refine ⟨fun v hv o ho => ?_, htargets⟩
  have hnode := hpoints v.index ((mem_pointsTo_iff hv).mp ho)
  rw [lowered, if_pos hv] at hnode
  exact (mem_pointsTo_iff (Module.index_lt_rename hv)).mpr hnode

/-- What is found with all operands made constants is found, and nothing else if no operand
is the memory of an object. -/
theorem pointsTo_rename {l : Listing} (hl : l.build = .ok m) (hρ : m.Fills ρ constants)
    (share share' : Bool) :
    let filled := unlimited (m.rename ρ constants) share'
    ((∀ v, v.index < m.valueCount →
        ∀ o ∈ filled.pointsTo v, o ∈ (unlimited m share).pointsTo v) ∧
      ∀ c, ∀ f ∈ filled.indirectTargets c, f ∈ (unlimited m share).indirectTargets c) ∧
    ((∀ o, Allocates m o → m.reads ⟨m.valueCount + o.index⟩ = false) →
      (∀ v, v.index < m.valueCount → (unlimited m share).pointsTo v = filled.pointsTo v) ∧
      ∀ c, (unlimited m share).indirectTargets c = filled.indirectTargets c) := by
  intro filled
  have hm := (Listing.build_eq_ok hl).1.linked
  have hsubset := subset_of_rename share share' hm hρ
  refine ⟨hsubset, fun hapart => ?_⟩
  obtain ⟨hpoints, htargets⟩ := subset_rename share share' hm hρ hapart
  refine ⟨fun v hv => Std.ExtTreeSet.ext_mem fun o => ⟨hpoints v hv o, hsubset.1 v hv o⟩,
    fun c => congrArg Std.ExtTreeSet.toList (Std.ExtTreeSet.ext_mem fun f => ?_)⟩
  rw [← mem_indirectTargets, ← mem_indirectTargets]
  exact ⟨htargets c f, hsubset.2 c f⟩

/-- Casts an operand beside a local variable that points to itself. -/
def castBeside (x : ValueId) : Listing where
  name := "m"
  items := [.declare "main" [] false,
    .define ⟨0⟩ [.instruction "a" .alloca, .store ⟨1⟩ ⟨1⟩, .instruction "c" (.cast x), .ret none]]

/-- The first five values, and one constant for everything else. -/
def firstFive (x : ValueId) : ValueId := if x.index < 5 then x else ⟨5⟩

theorem fills_firstFive (h : m.valueCount = 5) : m.Fills firstFive ["k"] := by
  refine ⟨fun x hx => ?_, fun x hx => ?_⟩
  · rw [h] at hx
    exact if_pos hx
  · rw [h] at hx ⊢
    rw [firstFive, if_neg (Nat.not_lt.mpr hx)]
    exact ⟨le_rfl, Nat.lt_succ_self 5⟩

/-- The operand is the number of a store, behind the five values. -/
theorem pointsTo_rename_castBeside : ∃ m, (castBeside ⟨7⟩).build = .ok m ∧
    m.Fills firstFive ["k"] ∧ m.reads ⟨7⟩ = true ∧ ∀ share share',
      let filled := unlimited (m.rename firstFive ["k"]) share'
      (unlimited m share).pointsTo ⟨3⟩ = filled.pointsTo ⟨3⟩ ∧
        ∀ c, (unlimited m share).indirectTargets c = filled.indirectTargets c := by
  obtain ⟨m, hl, hcount, hreads, hsites⟩ := Listing.exists_build (l := castBeside ⟨7⟩)
    (p := fun m => m.valueCount = 5 ∧ m.reads ⟨7⟩ = true ∧
      ∀ i ∈ List.range 5, m.isAllocationSite ⟨i⟩ = true → m.reads ⟨5 + i⟩ = false)
    (by decide +kernel)
  have hm := (Listing.build_eq_ok hl).1.linked
  refine ⟨m, hl, fills_firstFive hcount, hreads, fun share share' => ?_⟩
  obtain ⟨hpoints, htargets⟩ := (pointsTo_rename hl (fills_firstFive hcount) share share').2
    fun o ho => by
      have hlt := ho.index_lt hm
      rw [hcount] at hlt ⊢
      exact hsites o.index (List.mem_range.mpr hlt) (ho.isAllocationSite hm)
  exact ⟨hpoints ⟨3⟩ (by rw [hcount]; decide), htargets⟩

/-- An operand that is no value but the memory of the local variable: the cast points to what
is stored there. -/
theorem pointsTo_memory_castBeside : ∃ m, (castBeside ⟨6⟩).build = .ok m ∧
    m.Fills firstFive ["k"] ∧ (⟨3⟩ : ValueId).index < m.valueCount ∧ ∀ share share',
      ⟨1⟩ ∈ (unlimited m share).pointsTo ⟨3⟩ ∧
      ⟨1⟩ ∉ (unlimited (m.rename firstFive ["k"]) share').pointsTo ⟨3⟩ := by
  obtain ⟨m, hl, hcount, hconstraints, hfilled, hcalls⟩ := Listing.exists_build
    (l := castBeside ⟨6⟩)
    (p := fun m => m.valueCount = 5 ∧
      (ConstraintSet.ofModule m).constraints =
        [.alloc ⟨0⟩ ⟨0⟩, .alloc ⟨1⟩ ⟨1⟩, .store ⟨1⟩ ⟨1⟩, .copy ⟨3⟩ ⟨6⟩] ∧
      (ConstraintSet.ofModule (m.rename firstFive ["k"])).constraints =
        [.alloc ⟨0⟩ ⟨0⟩, .alloc ⟨1⟩ ⟨1⟩, .store ⟨1⟩ ⟨1⟩, .copy ⟨3⟩ ⟨5⟩] ∧
      (ConstraintSet.ofModule (m.rename firstFive ["k"])).indirectCalls = [])
    (by decide +kernel)
  have hm := (Listing.build_eq_ok hl).1.linked
  have hlt : (⟨3⟩ : ValueId).index < m.valueCount := by rw [hcount]; decide
  refine ⟨m, hl, fills_firstFive hcount, hlt, fun share share' => ⟨?_, fun ho => ?_⟩⟩
  · -- The variable is in its node, so in its memory, and from there in the node of the cast.
    have hholds := (@solvedBy_unlimited m share hm).holds
    rw [hconstraints, hcount] at hholds
    have hself : ⟨1⟩ ∈ nodeSets m share 1 := hholds (.alloc ⟨1⟩ ⟨1⟩) (by decide)
    have hmemory : ⟨1⟩ ∈ nodeSets m share 6 := hholds (.store ⟨1⟩ ⟨1⟩) (by decide) _ hself hself
    exact (mem_pointsTo_iff hlt).mpr (hholds (.copy ⟨3⟩ ⟨6⟩) (by decide) hmemory)
  · -- Each variable in its node and the second in its memory solve the other constraints.
    have hcount' : (m.rename firstFive ["k"]).valueCount = 6 := by
      rw [Module.valueCount_rename, hcount]
      rfl
    have hsolved : (ConstraintSet.ofModule (m.rename firstFive ["k"])).SolvedBy
        (m.rename firstFive ["k"]) (fun i => {o | (i, o) ∈
          [((0 : Node), (⟨0⟩ : ValueId)), (1, ⟨1⟩), (7, ⟨1⟩)]}) fun _ => ∅ := by
      refine ⟨fun c hc => ?_, fun c hc => ?_⟩
      · rw [hfilled] at hc
        rw [hcount']
        simp only [List.mem_cons, List.not_mem_nil, or_false] at hc
        rcases hc with rfl | rfl | rfl | rfl <;> simp [Constraint.HoldsIn]
      · rw [hcalls] at hc
        cases hc
    have hnode := (nodeSets_subset share' hm.rename hsolved).1 3
      ((mem_pointsTo_iff (by rw [hcount']; decide)).mp ho)
    simp at hnode

end Solution

end PmemPaths.PointsTo
