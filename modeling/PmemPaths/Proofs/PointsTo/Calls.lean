import PmemPaths.Proofs.PointsTo.Least

/-!
# Points-to sets across calls

A call passes objects on: what an argument may point to, the parameter in its place may
point to (`pointsTo_param`), and what a function returns, the call of it
(`pointsTo_call`).  So it is for every function that a call names, and for every one
that a call through a pointer was found to call, in all modules that were written, also
where an operand is no value.
-/

namespace PmemPaths.PointsTo

open PmemPaths.Ir

namespace Solution

variable {m : Module} {share : Bool} {call x y o : ValueId} {f : FunctionId}

/-- The function is named by the call, or found to be called by it. -/
def Calls (s : Solution) (m : Module) (call : ValueId) (f : FunctionId) : Prop :=
  m.calledFunction? call = some f ∨ f ∈ s.indirectTargets call

/-- What the nodes of a module are found to point to. -/
def nodeSets (m : Module) (share : Bool) : Node → Set ValueId :=
  solved (unlimited m share).run (cyclesOf (.ofModule m) share).representative

theorem mem_pointsTo_iff (h : x.index < m.valueCount) :
    o ∈ (unlimited m share).pointsTo x ↔ o ∈ nodeSets m share x.index := by
  rw [pointsTo_unlimited h]
  exact Iff.rfl

/-- What flows into the node of a value, the value may point to. -/
theorem pointsTo_of_subset (hx : x.index < m.valueCount)
    (hsub : nodeSets m share y.index ⊆ nodeSets m share x.index)
    (ho : o ∈ (unlimited m share).pointsTo y) : o ∈ (unlimited m share).pointsTo x := by
  rcases Nat.lt_or_ge y.index m.valueCount with hy | hy
  · exact (mem_pointsTo_iff hx).mpr (hsub ((mem_pointsTo_iff hy).mp ho))
  · rw [pointsTo_unlimited_of_le hy] at ho
    exact absurd ho Std.ExtTreeSet.not_mem_empty

/-- A value may point to the objects it makes. -/
theorem mem_pointsTo_of_alloc (hm : m.Linked) (hx : x.index < m.valueCount)
    (h : .alloc x o ∈ (ConstraintSet.ofModule m).constraints) :
    o ∈ (unlimited m share).pointsTo x :=
  (mem_pointsTo_iff hx).mpr ((solvedBy_unlimited hm).holds _ h)

/-- A function is found to be called only if the pointer may point to it. -/
theorem address_mem_of_indirectTargets (hm : m.Linked)
    (hf : f ∈ (unlimited m share).indirectTargets call) :
    ∃ p args fn, m.operation? call = some (.call (.indirect p) args) ∧ m.isDefined f = true ∧
      m.function? f = some fn ∧ fn.address ∈ nodeSets m share p.index := by
  -- Nothing else has to be called for the constraints to hold.
  have hsolved := @solvedBy_unlimited m share hm
  have hfew : (ConstraintSet.ofModule m).SolvedBy m (nodeSets m share) fun c => {g |
      ∃ p args gn, m.operation? c = some (.call (.indirect p) args) ∧ m.isDefined g = true ∧
        m.function? g = some gn ∧ gn.address ∈ nodeSets m share p.index} := by
    refine ⟨hsolved.holds, fun c hc g gn hdef hg ho => ⟨?_, (hsolved.calls c hc g gn hdef hg ho).2⟩⟩
    obtain ⟨v, -, hv⟩ := List.mem_filterMap.mp hc
    rw [indirectCall?] at hv
    split at hv
    · next p args hop =>
      cases hv
      exact ⟨p, args, gn, hop, hdef, hg, ho⟩
    · cases hv
  exact (below_unlimited hm hfew).resolved call f (mem_indirectTargets.mp hf)

/-- What a call binds flows. -/
theorem nodeSets_subset_of_mem_bindings (hm : m.Linked)
    (hcall : (unlimited m share).Calls m call f) (hdef : m.isDefined f = true)
    (hxy : (x, y) ∈ bindings m f call (m.callArgs call)) :
    nodeSets m share y.index ⊆ nodeSets m share x.index := by
  have hsolved := @solvedBy_unlimited m share hm
  rcases hcall with hdirect | hindirect
  · rw [Module.calledFunction?] at hdirect
    split at hdirect
    · next g args hop =>
      cases hdirect
      rw [Module.callArgs, hop] at hxy
      refine hsolved.holds (.copy x y)
        (List.mem_append_right _ (List.mem_flatMap.mpr ⟨call, ?_, ?_⟩))
      · exact (mem_programInstructions hm).mpr ⟨_, hop⟩
      · rw [instructionConstraints, hop]
        dsimp only
        rw [if_pos hdef]
        exact List.mem_map.mpr ⟨(x, y), hxy, rfl⟩
    · cases hdirect
  · obtain ⟨p, args, fn, hop, -, hf, haddr⟩ := address_mem_of_indirectTargets hm hindirect
    rw [Module.callArgs, hop] at hxy
    have hmem : ⟨call, p, args⟩ ∈ (ConstraintSet.ofModule m).indirectCalls := by
      refine List.mem_filterMap.mpr ⟨call, (mem_programInstructions hm).mpr ⟨_, hop⟩, ?_⟩
      rw [indirectCall?, hop]
    exact (hsolved.calls _ hmem f fn hdef hf haddr).2 x y hxy

/-- What an argument may point to, the parameter may point to. -/
theorem pointsTo_param (hm : m.Linked) (hcall : (unlimited m share).Calls m call f)
    (hdef : m.isDefined f = true) {fn : Function} (hf : m.function? f = some fn)
    (hxy : (x, y) ∈ fn.params.zip (m.callArgs call))
    (ho : o ∈ (unlimited m share).pointsTo y) : o ∈ (unlimited m share).pointsTo x := by
  refine pointsTo_of_subset (hm.param f fn hf x (List.of_mem_zip hxy).1) ?_ ho
  refine nodeSets_subset_of_mem_bindings hm hcall hdef (List.mem_append_left _ ?_)
  rwa [hf]

/-- What a function returns may point to, the call may point to. -/
theorem pointsTo_call (hm : m.Linked) (hcall : (unlimited m share).Calls m call f)
    (hdef : m.isDefined f = true) (hexists : call.index < m.valueCount)
    (hy : y ∈ returnedValues m f) (ho : o ∈ (unlimited m share).pointsTo y) :
    o ∈ (unlimited m share).pointsTo call :=
  pointsTo_of_subset hexists (nodeSets_subset_of_mem_bindings hm hcall hdef
    (List.mem_append_right _ (List.mem_map.mpr ⟨y, hy, rfl⟩))) ho

end Solution

end PmemPaths.PointsTo
