import PmemPaths.Nvm.Checked
import PmemPaths.Proofs.Graph.BestWalk
import PmemPaths.Proofs.Graph.Partition
import PmemPaths.Proofs.Ir.ControlFlow

/-!
# Priorities are what walks collect

The priority of an instruction is the most that a control-flow walk from it collects, up
to the largest priority (`prioritiesOf_collects`).

The components come sinks first, so when one is priced the table knows all that it can be
left for, and nothing else (`Priced`).  What is known has been capped, but capping can
wait: sums and maxima of capped numbers are the capped sums and maxima.
-/

namespace PmemPaths.Nvm

open PmemPaths.Ir
open PmemPaths.Graph (Partition CollectsMost collectsMost_component)

variable {m : Module} {f : FunctionId} {weights known : Table} {v w : ValueId}
  {c done : List ValueId} {best : ValueId → Nat} {edges : List (ValueId × ValueId)}

/-! ## Tables -/

theorem Table.getElem?_insert (t : Table) (v w : ValueId) (n : Nat) :
    (t.insert v n)[w]? = if w = v then some n else t[w]? := by
  rw [Std.ExtTreeMap.getElem?_insert]
  simp only [Std.LawfulEqCmp.compare_eq_iff_eq]
  simp only [eq_comm]

/-- A table that takes over another one has the numbers of that one first. -/
theorem Table.getElem?_insertMany_toList (t own : Table) (v : ValueId) :
    (t.insertMany own.toList)[v]? = own[v]?.or t[v]? := by
  cases hv : own[v]? with
  | some n =>
    exact Std.ExtTreeMap.getElem?_insertMany_list_of_mem Std.ReflCmp.compare_self
      Std.ExtTreeMap.distinct_keys_toList (Std.ExtTreeMap.mem_toList_iff_getElem?_eq_some.mpr hv)
  | none =>
    refine Std.ExtTreeMap.getElem?_insertMany_list_of_contains_eq_false ?_
    rw [Std.ExtTreeMap.map_fst_toList_eq_keys, ← Bool.not_eq_true, List.contains_iff_mem,
      Std.ExtTreeMap.mem_keys, Std.ExtTreeMap.mem_iff_isSome_getElem?, hv]
    exact Bool.false_ne_true

theorem getElem?_foldl_insert (p : Nat) (vs : List ValueId) (known : Table) (v : ValueId) :
    (vs.foldl (fun known v => known.insert v p) known)[v]? =
      if v ∈ vs then some p else known[v]? := by
  induction vs generalizing known with
  | nil => rfl
  | cons w vs ih =>
    rw [List.foldl_cons, ih, Table.getElem?_insert]
    by_cases hv : v ∈ vs
    · simp [hv]
    · simp [hv]

/-- The table with the priority of one more component. -/
def priceComponent (m : Module) (weights known : Table) (c : List ValueId) : Table :=
  let p := componentPriority m weights known c
  c.foldl (fun known v => known.insert v p) known

theorem getElem?_priceComponent :
    (priceComponent m weights known c)[v]? =
      if v ∈ c then some (componentPriority m weights known c) else known[v]? :=
  getElem?_foldl_insert _ c known v

theorem mem_foldl_priceComponent (components : List (List ValueId))
    (h : v ∈ known ∨ ∃ c ∈ components, v ∈ c) :
    v ∈ components.foldl (priceComponent m weights) known := by
  induction components generalizing known with
  | nil => simpa using h
  | cons c components ih =>
    rw [List.foldl_cons]
    refine ih ?_
    rw [Std.ExtTreeMap.mem_iff_isSome_getElem?, getElem?_priceComponent]
    rcases h with h | ⟨d, hd, hv⟩
    · left
      split
      · rfl
      · exact Std.ExtTreeMap.mem_iff_isSome_getElem?.mp h
    · rcases List.mem_cons.mp hd with rfl | hd
      · left
        rw [if_pos hv]
        rfl
      · exact .inr ⟨d, hd, hv⟩

/-- Every instruction of a function has a priority. -/
theorem mem_priorities {m : Module} {f : FunctionId} {v : ValueId} (weights : Table)
    (hv : v ∈ m.instructionsOf f) : v ∈ priorities m f weights :=
  mem_foldl_priceComponent _ (.inr ((Graph.mem_found _ _).mpr (.inl hv)))

theorem exists_priority {m : Module} {f : FunctionId} {v : ValueId} (weights : Table)
    (hv : v ∈ m.instructionsOf f) : ∃ p, (priorities m f weights)[v]? = some p :=
  Option.isSome_iff_exists.mp
    (Std.ExtTreeMap.mem_iff_isSome_getElem?.mp (mem_priorities weights hv))

/-! ## Capping -/

theorem foldl_addCapped (ns : List Nat) (a : Nat) :
    ns.foldl addCapped (min maxPriority a) = min maxPriority (a + ns.sum) := by
  induction ns generalizing a with
  | nil => rfl
  | cons n ns ih =>
    have hn : addCapped (min maxPriority a) n = min maxPriority (a + n) := by
      rw [addCapped]
      omega
    rw [List.foldl_cons, hn, ih, List.sum_cons, Nat.add_assoc]

theorem sumCapped_eq (ns : List Nat) : sumCapped ns = min maxPriority ns.sum := by
  have h := foldl_addCapped ns 0
  rwa [Nat.min_zero, Nat.zero_add] at h

theorem foldl_max_min (ns : List Nat) (a : Nat) :
    (ns.map (min maxPriority)).foldl max (min maxPriority a) =
      min maxPriority (ns.foldl max a) := by
  induction ns generalizing a with
  | nil => rfl
  | cons n ns ih =>
    have hn : max (min maxPriority a) (min maxPriority n) = min maxPriority (max a n) := by
      omega
    rw [List.map_cons, List.foldl_cons, hn, ih, List.foldl_cons]

theorem largest_map_min (ns : List Nat) :
    largest (ns.map (min maxPriority)) = min maxPriority (largest ns) := by
  have h := foldl_max_min ns 0
  rwa [Nat.min_zero] at h

theorem foldl_max_spec (ns : List Nat) (a : Nat) :
    a ≤ ns.foldl max a ∧ (∀ n ∈ ns, n ≤ ns.foldl max a) ∧
      (ns.foldl max a = a ∨ ns.foldl max a ∈ ns) := by
  induction ns generalizing a with
  | nil => simp
  | cons n ns ih =>
    obtain ⟨hstart, hmem, hcase⟩ := ih (max a n)
    rw [List.foldl_cons, List.forall_mem_cons, List.mem_cons]
    refine ⟨by omega, ⟨by omega, hmem⟩, ?_⟩
    obtain he | hin := hcase
    · omega
    · exact .inr (.inr hin)

theorem le_largest {ns : List Nat} {n : Nat} (h : n ∈ ns) : n ≤ largest ns :=
  (foldl_max_spec ns 0).2.1 n h

theorem largest_cases (ns : List Nat) : largest ns = 0 ∨ largest ns ∈ ns :=
  (foldl_max_spec ns 0).2.2

/-! ## Pricing one component -/

/-- What an instruction weighs; without a weight it weighs nothing. -/
def weightOf (weights : Table) (v : ValueId) : Nat := weights.getD v 0

/-- The best that an instruction of a component can leave it for. -/
def bestLeft (m : Module) (done : List ValueId) (best : ValueId → Nat) (c : List ValueId) : Nat :=
  largest ((c.flatMap m.successors).map fun w => if w ∈ done then best w else 0)

/-- The table knows the priorities of some instructions, and nothing else. -/
structure Priced (m : Module) (weights : Table) (done : List ValueId) (known : Table)
    (best : ValueId → Nat) : Prop where
  collects : ∀ v ∈ done, CollectsMost m.successors (weightOf weights) v (best v)
  getElem?_eq : ∀ v, known[v]? = if v ∈ done then some (min maxPriority (best v)) else none

theorem Priced.componentPriority_eq (h : Priced m weights done known best) :
    componentPriority m weights known c =
      min maxPriority ((c.map (weightOf weights)).sum + bestLeft m done best c) := by
  have hknown : ∀ w, known.getD w 0 = min maxPriority (if w ∈ done then best w else 0) := by
    intro w
    rw [Std.ExtTreeMap.getD_eq_getD_getElem?, h.getElem?_eq]
    split
    · rfl
    · rfl
  have hlargest : largest ((c.flatMap m.successors).map fun w => known.getD w 0) =
      min maxPriority (bestLeft m done best c) := by
    rw [bestLeft, ← largest_map_min, List.map_map]
    simp only [hknown, Function.comp_def]
  have hsum : sumCapped (c.map fun v => weights.getD v 0) =
      min maxPriority (c.map (weightOf weights)).sum := sumCapped_eq _
  rw [componentPriority, hlargest, hsum, addCapped]
  omega

/-- Pricing a component that is left for priced instructions only prices it. -/
theorem Priced.component (h : Priced m weights done known best) (hnodup : c.Nodup)
    (hconnected : ∀ u ∈ c, ∀ v ∈ c, Relation.ReflTransGen (fun u v => v ∈ m.successors u) u v)
    (hleave : ∀ u ∈ c, ∀ w ∈ m.successors u, w ∈ c ∨ w ∈ done)
    (hclosed : ∀ u ∈ done, ∀ w ∈ m.successors u, w ∈ done) (hdisjoint : ∀ v ∈ c, v ∉ done) :
    ∃ best', Priced m weights (done ++ c) (priceComponent m weights known c) best' := by
  have hcollects : ∀ v ∈ c, CollectsMost m.successors (weightOf weights) v
      ((c.map (weightOf weights)).sum + bestLeft m done best c) := by
    intro v hv
    rw [← Graph.collected_of_nodup hnodup]
    refine collectsMost_component hconnected hleave hclosed hdisjoint h.collects ?_ ?_ hv
    · intro u hu w hw hdone
      refine le_largest (List.mem_map.mpr ⟨w, List.mem_flatMap.mpr ⟨u, hu, hw⟩, ?_⟩)
      rw [if_pos hdone]
    · obtain hzero | hmem := largest_cases
        ((c.flatMap m.successors).map fun w => if w ∈ done then best w else 0)
      · exact .inl hzero
      · obtain ⟨w, hw, he⟩ := List.mem_map.mp hmem
        obtain ⟨u, hu, hw⟩ := List.mem_flatMap.mp hw
        split at he
        · next hdone => exact .inr ⟨u, hu, w, hw, hdone, he⟩
        · exact .inl he.symm
  refine ⟨fun v =>
    if v ∈ c then (c.map (weightOf weights)).sum + bestLeft m done best c else best v, ?_, ?_⟩
  · intro v hv
    split
    · next hin => exact hcollects v hin
    · next hout => exact h.collects v ((List.mem_append.mp hv).resolve_right hout)
  · intro v
    rw [getElem?_priceComponent, h.getElem?_eq, h.componentPriority_eq]
    simp only [List.mem_append]
    by_cases hin : v ∈ c
    · simp [hin]
    · simp [hin]

/-! ## Pricing a function -/

/-- The priorities of the instructions of a function, with its edges in any order. -/
def prioritiesAlong (m : Module) (f : FunctionId) (weights : Table)
    (edges : List (ValueId × ValueId)) : Table :=
  (Partition.ofEdges (m.instructionsOf f) edges).components.foldl (priceComponent m weights) ∅

theorem mem_flowEdges : (v, w) ∈ flowEdges m f ↔ v ∈ m.instructionsOf f ∧ w ∈ m.successors v := by
  simp only [flowEdges, List.mem_flatMap, List.mem_map, Prod.mk.injEq]
  constructor
  · rintro ⟨u, hu, x, hx, rfl, rfl⟩
    exact ⟨hu, hx⟩
  · rintro ⟨hv, hw⟩
    exact ⟨v, hv, w, hw, rfl, rfl⟩

section Components

variable (hm : m.Built)
  (hedges : ∀ v w, (v, w) ∈ edges ↔ v ∈ m.instructionsOf f ∧ w ∈ m.successors v)

include hm hedges

/-- The components have the instructions of the function as their members. -/
theorem mem_found_flow :
    (∃ c ∈ Graph.found (m.instructionsOf f) edges, v ∈ c) ↔ v ∈ m.instructionsOf f := by
  rw [Graph.mem_found, Graph.Mentioned, or_iff_left_iff_imp]
  rintro ⟨u, he | he⟩
  · obtain ⟨hu, hv⟩ := (hedges u v).mp he
    exact hm.successors_subset hu hv
  · exact ((hedges v u).mp he).1

/-- When the components are priced, the table knows what walks from them collect. -/
theorem priced_found : ∃ best, Priced m weights (Graph.found (m.instructionsOf f) edges).flatten
    ((Graph.found (m.instructionsOf f) edges).foldl (priceComponent m weights) ∅) best := by
  -- The edges are known to be those of control flow for instructions of the function only.
  suffices (∀ v ∈ (Graph.found (m.instructionsOf f) edges).flatten, v ∈ m.instructionsOf f) ∧
      ∃ best, Priced m weights _ _ best from this.2
  refine Graph.foldl_found _ _ (P := fun done known => (∀ v ∈ done, v ∈ m.instructionsOf f) ∧
    ∃ best, Priced m weights done known best) ⟨by simp, fun _ => 0, by simp, by simp⟩ ?_
  rintro done known c ⟨hdone, best, hpriced⟩ hc hnodup hnew hleave hclosed
  have hown : ∀ v ∈ c, v ∈ m.instructionsOf f :=
    fun v hv => (mem_found_flow hm hedges).mp ⟨c, hc, hv⟩
  refine ⟨?_, hpriced.component hnodup ?_ ?_ ?_ hnew⟩
  · intro v hv
    exact (List.mem_append.mp hv).elim (hdone v) (hown v)
  · intro u hu v hv
    obtain ⟨hreach, -⟩ := (Graph.mem_found_iff_mutual _ _ hc hu).mp hv
    exact Relation.ReflTransGen.mono (fun x y he => ((hedges x y).mp he).2) u v hreach
  · intro u hu w hw
    exact hleave u hu w ((hedges u w).mpr ⟨hown u hu, hw⟩)
  · intro u hu w hw
    exact hclosed u hu w ((hedges u w).mpr ⟨hdone u hu, hw⟩)

end Components

/-- Only what the function's own instructions weigh matters. -/
theorem priorities_congr {weights' : Table} (hm : m.Built)
    (h : ∀ v ∈ m.instructionsOf f, weights[v]? = weights'[v]?) :
    priorities m f weights = priorities m f weights' := by
  refine List.foldl_ext _ _ _ fun known c hc => ?_
  have hweights : (c.map fun v => weights.getD v 0) = c.map fun v => weights'.getD v 0 := by
    refine List.map_congr_left fun v hv => ?_
    have hown := (mem_found_flow hm fun v w => mem_flowEdges (f := f)).mp ⟨c, hc, hv⟩
    rw [Std.ExtTreeMap.getD_eq_getD_getElem?, h v hown, Std.ExtTreeMap.getD_eq_getD_getElem?]
  simp only [componentPriority, hweights]

/-- A table has the priorities of the instructions of a function: the most that walks from
them collect, up to the largest priority. -/
structure PricesWalks (m : Module) (f : FunctionId) (weights t : Table) : Prop where
  mem_iff : ∀ v, v ∈ t ↔ v ∈ m.instructionsOf f
  collects : ∀ v ∈ m.instructionsOf f, ∃ most,
    CollectsMost m.successors (fun v => weights.getD v 0) v most ∧
      t[v]? = some (min maxPriority most)

/-- There is one such table. -/
theorem PricesWalks.unique {t t' : Table} (h : PricesWalks m f weights t)
    (h' : PricesWalks m f weights t') : t = t' := by
  refine Std.ExtTreeMap.ext_getElem? ?_
  intro v
  by_cases hv : v ∈ m.instructionsOf f
  · obtain ⟨most, hmost, ht⟩ := h.collects v hv
    obtain ⟨most', hmost', ht'⟩ := h'.collects v hv
    rw [ht, ht', hmost.unique hmost']
  · have hnot := mt (h.mem_iff v).mp hv
    have hnot' := mt (h'.mem_iff v).mp hv
    rw [Std.ExtTreeMap.getElem?_eq_none hnot, Std.ExtTreeMap.getElem?_eq_none hnot']

theorem prioritiesAlong_prices (hm : m.Built)
    (hedges : ∀ v w, (v, w) ∈ edges ↔ v ∈ m.instructionsOf f ∧ w ∈ m.successors v) :
    PricesWalks m f weights (prioritiesAlong m f weights edges) := by
  obtain ⟨best, hpriced⟩ : ∃ best, Priced m weights (Graph.found (m.instructionsOf f) edges).flatten
      (prioritiesAlong m f weights edges) best := priced_found hm hedges
  have hmem : ∀ v, v ∈ (Graph.found (m.instructionsOf f) edges).flatten ↔
      v ∈ m.instructionsOf f := by
    intro v
    rw [List.mem_flatten, mem_found_flow hm hedges]
  have hget : ∀ v, (prioritiesAlong m f weights edges)[v]? =
      if v ∈ m.instructionsOf f then some (min maxPriority (best v)) else none := by
    intro v
    refine (hpriced.getElem?_eq v).trans ?_
    simp only [hmem]
  refine ⟨?_, ?_⟩
  · intro v
    rw [Std.ExtTreeMap.mem_iff_isSome_getElem?, hget]
    split
    · next hv => exact iff_of_true rfl hv
    · next hv => exact iff_of_false Bool.false_ne_true hv
  · intro v hv
    exact ⟨best v, hpriced.collects v ((hmem v).mpr hv), (hget v).trans (if_pos hv)⟩

/-- Whatever the order of the edges, each instruction of a function of a built module has
the most that a control-flow walk from it collects as its priority, up to the largest
priority, and nothing else has one. -/
theorem prioritiesOf_collects {l : Listing} (hl : l.build = .ok m)
    (hf : (m.function? f).isSome = true) (weights : Table) :
    ∃ t, prioritiesOf m f weights = .ok t ∧ PricesWalks m f weights t ∧
      ∀ edges, edges.Perm (flowEdges m f) → prioritiesAlong m f weights edges = t := by
  have hm := Listing.build_built hl
  have hprices : PricesWalks m f weights (priorities m f weights) :=
    prioritiesAlong_prices hm fun v w => mem_flowEdges
  refine ⟨priorities m f weights, if_pos hf, hprices, ?_⟩
  intro edges hperm
  refine (prioritiesAlong_prices hm fun v w => ?_).unique hprices
  rw [hperm.mem_iff, mem_flowEdges]

/-- A block that control may go back to, and a way out. -/
def loopThenReturn : Listing where
  name := "m"
  items := [.declare "f" [] false,
    .define ⟨0⟩ [.instruction "x" .alloca, .jumpIf ⟨1⟩ ⟨0⟩ ⟨1⟩, .block "out", .ret none]]

/-- Weights for the block and for the way out. -/
def loopWeights : Table := ((∅ : Table).insert ⟨1⟩ 2).insert ⟨3⟩ 5

theorem prioritiesOf_collects_loop : ∃ m, loopThenReturn.build = .ok m ∧
    (m.function? ⟨0⟩).isSome = true ∧ ⟨1⟩ ∈ m.successors ⟨2⟩ ∧
    ∃ t, prioritiesOf m ⟨0⟩ loopWeights = .ok t ∧ PricesWalks m ⟨0⟩ loopWeights t ∧
      ∀ edges, edges.Perm (flowEdges m ⟨0⟩) → prioritiesAlong m ⟨0⟩ loopWeights edges = t := by
  obtain ⟨m, hl, hf, hback⟩ := Listing.exists_build (l := loopThenReturn)
    (p := fun m => (m.function? ⟨0⟩).isSome = true ∧ ⟨1⟩ ∈ m.successors ⟨2⟩) (by decide +kernel)
  exact ⟨m, hl, hf, hback, prioritiesOf_collects hl hf loopWeights⟩

end PmemPaths.Nvm
