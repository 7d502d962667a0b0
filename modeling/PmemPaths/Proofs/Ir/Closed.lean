import PmemPaths.Proofs.Ir.ControlFlow

/-!
# Closed control flow

What reads a module relies on facts that it does not check again: each instruction and each
block is listed in one place, control always has somewhere to go on to and never leaves its
function, a function with a body has a start, and calls pass what they should.  Together they
say that the module is *closed* (`Module.Closed`).  Every module that is built is closed, in
whatever order its blocks were made and filled (`Listing.build_closed`).

That an instruction has successors takes both sides of the building: the writing puts it into
the block that it names, and the checks see to it that the block, and each block that it names
as a target, ends in a terminator.
-/

namespace PmemPaths.Ir

/-- How many instructions control can go on to. -/
def Operation.exits : Operation → Nat
  | .branch _ targets => targets.length
  | .ret _ | .unreachable => 0
  | _ => 1

namespace Module

variable {m : Module} {f g : FunctionId} {b : BlockId} {v w : ValueId} {i : Instruction}

/-- Everything is listed in one place, and control stays in its function. -/
structure Closed (m : Module) : Prop where
  /-- An instruction is listed once over all blocks, by the block that it names. -/
  instruction_once : ∀ v i, m.instruction? v = some i →
    ∀ b, (m.instsOf b).count v = if i.block = b then 1 else 0
  /-- A block is listed once over all functions, by the function that it names. -/
  block_once : ∀ b blk, m.block? b = some blk →
    ∀ f, (m.blocksOf f).count b = if blk.function = f then 1 else 0
  /-- There are as many successors as the operation asks for. -/
  exits : ∀ f, ∀ v ∈ m.instructionsOf f, ∃ op, m.operation? v = some op ∧
    (m.successors v).length = op.exits
  /-- Control goes to the start of each target. -/
  targets : ∀ f, ∀ v ∈ m.instructionsOf f, ∀ c bs, m.operation? v = some (.branch c bs) →
    (m.successors v).map some = bs.map fun b => (m.instsOf b).head?
  /-- Control stays in the function. -/
  stays : ∀ f, ∀ v ∈ m.instructionsOf f, ∀ w ∈ m.successors v, w ∈ m.instructionsOf f
  /-- A function with a body has a start, and one that is not a phi. -/
  starts : ∀ f, m.isDefined f = true →
    (m.firstInstruction? f).isSome = true ∧ (m.entryFirstNonPhi? f).isSome = true
  /-- A direct call passes one argument for each parameter, unless more are asked for. -/
  arity : ∀ v g args, m.operation? v = some (.call (.direct g) args) →
    ∃ gn, m.function? g = some gn ∧ (gn.variadic = false → args.length = gn.params.length)

/-! ## Going on -/

/-- Something follows each value of a list but the last. -/
theorem exists_next? {vs : List ValueId} (hv : v ∈ vs) (hlast : vs.getLast? ≠ some v) :
    ∃ w, next? v vs = some w := by
  induction vs with
  | nil => cases hv
  | cons u us ih =>
    cases us with
    | nil =>
      obtain rfl := List.mem_singleton.mp hv
      exact absurd rfl hlast
    | cons x xs =>
      rw [next?]
      split
      · exact ⟨x, rfl⟩
      · next hne =>
        rw [List.getLast?_cons_cons] at hlast
        exact ih ((List.mem_cons.mp hv).resolve_left (Ne.symm hne)) hlast

/-- What is no terminator has a successor, since its block ends in a terminator. -/
theorem Built.exists_next? (h : m.Built) (hi : m.instruction? v = some i)
    (hb : i.block ∈ m.blocksOf f) (hop : i.op.isTerminator = false) :
    ∃ w, next? v (m.instsOf i.block) = some w := by
  obtain ⟨last, hlast, hends⟩ := h.exists_last hb
  refine Module.exists_next? ((h.mem_instsOf_iff hi).mpr rfl) fun hv => ?_
  rw [hlast, Option.some.injEq] at hv
  rw [hv, isTerminator, operation?, hi, Option.map_some, Option.any_some, hop] at hends
  cases hends

/-- The blocks that a branch names are not empty, so that each has a start. -/
theorem Built.map_successors (h : m.Built) (hv : v ∈ m.instructionsOf f) {c : Option ValueId}
    {bs : List BlockId} (hop : m.operation? v = some (.branch c bs)) :
    (m.successors v).map some = bs.map fun b => (m.instsOf b).head? := by
  have hstart : ∀ b ∈ bs, (m.instsOf b).head? = some ((m.instsOf b).head?.getD v) := by
    intro b hb
    obtain ⟨w, hw⟩ := h.exists_head (h.target_mem hv hop hb)
    rw [hw, Option.getD_some]
  obtain ⟨i, hi, hbranch⟩ := Option.map_eq_some_iff.mp hop
  simp only [successors, hi, hbranch]
  rw [List.filterMap_eq_map_iff_forall_eq_some.mpr hstart, List.map_map]
  exact List.map_congr_left fun b hb => (hstart b hb).symm

theorem Built.length_successors (h : m.Built) (hv : v ∈ m.instructionsOf f) {op : Operation}
    (hop : m.operation? v = some op) : (m.successors v).length = op.exits := by
  obtain ⟨i, hi, hb⟩ := h.mem_instructionsOf_iff.mp hv
  obtain rfl : i.op = op := by
    rw [operation?, hi] at hop
    exact Option.some.inj hop
  cases hkind : i.op with
  | branch c bs =>
    rw [hkind] at hop
    have hlength := congrArg List.length (h.map_successors hv hop)
    rw [List.length_map, List.length_map] at hlength
    exact hlength
  | ret r => simp [successors, hi, hkind, Operation.exits]
  | unreachable => simp [successors, hi, hkind, Operation.exits]
  | alloca | load p | store x p | gep x ix | cast x | phi inc | call g xs | other xs =>
    obtain ⟨w, hw⟩ := h.exists_next? hi hb (by rw [hkind]; rfl)
    simp [successors, hi, hkind, hw, Operation.exits]

/-- A direct call that passes the checks passes what its function takes. -/
theorem passes_of_checkInstruction {args : List ValueId}
    (hop : m.operation? v = some (.call (.direct g) args))
    (h : m.checkInstruction f v = .ok ()) :
    ∃ gn, m.function? g = some gn ∧ (gn.variadic = false → args.length = gn.params.length) := by
  rw [checkInstruction, hop] at h
  dsimp only at h
  split at h
  · cases h
  · next gn hg =>
    refine ⟨gn, hg, fun hvariadic => ?_⟩
    by_contra hne
    rw [if_pos (by simpa [hvariadic] using Ne.symm hne)] at h
    cases h

/-! ## Modules that are built -/

theorem Built.closed (h : m.Built) : m.Closed where
  instruction_once v i hi b := by
    rw [(h.listed.nodup_instsOf b).count]
    simp only [h.mem_instsOf_iff hi]
  block_once b blk hb f := by
    rw [(h.listed.nodup_blocksOf f).count]
    simp only [h.mem_blocksOf_iff hb]
  exits f v hv := by
    obtain ⟨i, hi, -⟩ := h.mem_instructionsOf_iff.mp hv
    have hop : m.operation? v = some i.op := congrArg (Option.map _) hi
    exact ⟨i.op, hop, h.length_successors hv hop⟩
  targets f v hv c bs hop := h.map_successors hv hop
  stays f v hv w hw := h.successors_subset hv hw
  starts f hdef := by
    obtain ⟨w, hw⟩ := h.exists_firstInstruction hdef
    obtain ⟨e, -, he⟩ := h.exists_entryFirstNonPhi hdef
    exact ⟨Option.isSome_of_eq_some hw, Option.isSome_of_eq_some he⟩
  arity v g args hop := by
    obtain ⟨i, hi, -⟩ := Option.map_eq_some_iff.mp hop
    obtain ⟨f, -, hv⟩ := h.linked.mem_instructionsOf hi
    exact passes_of_checkInstruction hop (h.checkInstruction hv)

end Module

/-- A listing that is accepted gives a closed module. -/
theorem Listing.build_closed {l : Listing} {m : Module} (h : l.build = .ok m) : m.Closed :=
  (build_built h).closed

/-- A branch to two blocks that meet in a third.  The last block is filled first, another
function is written in between, and the entry block is filled last. -/
def diamond : Listing where
  name := "diamond"
  items := [
    .declare "main" [] false,
    .declare "callee" ["x"] false,
    .constant "c",
    .define ⟨0⟩ [.addBlock "entry", .addBlock "left", .addBlock "right", .addBlock "exit",
      .moveTo ⟨3⟩, .instruction "p" (.phi [(⟨3⟩, ⟨1⟩), (⟨3⟩, ⟨2⟩)]), .ret none],
    .define ⟨1⟩ [.ret (some ⟨2⟩)],
    .define ⟨0⟩ [.moveTo ⟨1⟩, .jump ⟨3⟩,
      .moveTo ⟨2⟩, .instruction "r" (.call (.direct ⟨1⟩) [⟨3⟩]), .jump ⟨3⟩,
      .moveTo ⟨0⟩, .jumpIf ⟨3⟩ ⟨1⟩ ⟨2⟩]]

theorem Listing.build_closed_diamond : ∃ m, diamond.build = .ok m ∧ m.Closed ∧
    m.firstInstruction? ⟨0⟩ = some ⟨10⟩ ∧ m.successors ⟨10⟩ = [⟨7⟩, ⟨8⟩] ∧
    m.successors ⟨8⟩ = [⟨9⟩] ∧ m.successors ⟨5⟩ = [] := by
  obtain ⟨m, hl, hm⟩ := Listing.exists_build (l := diamond)
    (p := fun m => m.firstInstruction? ⟨0⟩ = some ⟨10⟩ ∧ m.successors ⟨10⟩ = [⟨7⟩, ⟨8⟩] ∧
      m.successors ⟨8⟩ = [⟨9⟩] ∧ m.successors ⟨5⟩ = []) (by decide +kernel)
  exact ⟨m, hl, Listing.build_closed hl, hm⟩

end PmemPaths.Ir
