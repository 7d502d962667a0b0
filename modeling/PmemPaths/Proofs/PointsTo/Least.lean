import Mathlib.Data.Finset.Prod
import Mathlib.Order.Bounds.Basic
import PmemPaths.Proofs.Graph.Partition
import PmemPaths.Proofs.PointsTo.Inclusion
import PmemPaths.Proofs.PointsTo.Worklist

/-!
# Points-to solutions are least

The run that solves a module starts below every solution of its constraints and so
stays there.  When its worklist is empty, its sets are a solution.  So they are the
least one, whether nodes on a cycle of copies share a set or not: in any solution
they have the same set.

The greatest sets there can be, all objects for every node, solve the constraints too.
They bound the run, so that the worklist does run empty within the steps the run has,
also when instructions have operands that are no values.
-/

namespace PmemPaths.PointsTo

open PmemPaths.Ir
open PmemPaths.Graph (Partition)
open PmemPaths.Graph.Partition (representative_mutual representative_idem)

variable {m : Module} {k : ConstraintSet} {shared : Node → Node} {val : Node → Set ValueId}
  {T : ValueId → Set FunctionId} {o : ValueId} {n v : Node}

/-! ## Flows -/

theorem mem_fileUnder {β : Type} {pairs : List (Node × β)} {b : β} :
    b ∈ (fileUnder pairs).getD v [] ↔ (v, b) ∈ pairs := by
  induction pairs with
  | nil => simp [fileUnder]
  | cons e pairs ih =>
    obtain ⟨u, a⟩ := e
    rw [fileUnder, List.foldr_cons, ← fileUnder, Std.ExtTreeMap.getD_insert, List.mem_cons, ← ih]
    split
    · next h =>
      obtain rfl := Std.LawfulEqCmp.compare_eq_iff_eq.mp h
      simp
    · next h =>
      rw [Std.LawfulEqCmp.compare_eq_iff_eq] at h
      simp [Ne.symm h]

/-- An object stands for a defined function if it is the address of one. -/
theorem target?_eq_some (hm : m.Linked) {f : FunctionId} :
    (flowOf m k shared).target? o = some f ↔
      m.isDefined f = true ∧ ∃ fn, m.function? f = some fn ∧ fn.address = o := by
  have hany : ∀ g, ((m.function? g).any (·.address = o)) = true ↔
      ∃ gn, m.function? g = some gn ∧ gn.address = o := fun g => by
    rw [Option.any_eq_true]
    simp
  constructor
  · intro h
    have hmem := List.mem_of_find?_eq_some h
    have hsome := List.find?_some
      (p := fun f => (m.function? f).any fun fn : Function => fn.address = o) h
    exact ⟨Module.mem_definedFunctions.mp hmem, (hany f).mp hsome⟩
  · rintro ⟨hdef, fn, hf, rfl⟩
    cases hfind : (flowOf m k shared).target? fn.address with
    | none =>
      have hno := List.find?_eq_none.mp hfind f (Module.mem_definedFunctions.mpr hdef)
      exact absurd ((hany f).mpr ⟨fn, hf, rfl⟩) hno
    | some g =>
      -- No other function has the address.
      have hsome := List.find?_some
        (p := fun f => (m.function? f).any fun gn : Function => gn.address = fn.address) hfind
      obtain ⟨gn, hg, haddr⟩ := (hany g).mp hsome
      rw [hm.address_inj hg hf haddr]

theorem mem_loads {d : Node} : d ∈ (flowOf m k shared).loads.getD v [] ↔
    ∃ x p, .load x p ∈ k.constraints ∧ shared p.index = v ∧ shared x.index = d := by
  rw [flowOf, mem_fileUnder, List.mem_filterMap]
  constructor
  · rintro ⟨c, hc, h⟩
    cases c with
    | load x p =>
      cases h
      exact ⟨x, p, hc, rfl, rfl⟩
    | _ => cases h
  · rintro ⟨x, p, hc, rfl, rfl⟩
    exact ⟨_, hc, rfl⟩

theorem mem_stores {d : Node} : d ∈ (flowOf m k shared).stores.getD v [] ↔
    ∃ p y, .store p y ∈ k.constraints ∧ shared p.index = v ∧ shared y.index = d := by
  rw [flowOf, mem_fileUnder, List.mem_filterMap]
  constructor
  · rintro ⟨c, hc, h⟩
    cases c with
    | store p y =>
      cases h
      exact ⟨p, y, hc, rfl, rfl⟩
    | _ => cases h
  · rintro ⟨p, y, hc, rfl, rfl⟩
    exact ⟨_, hc, rfl⟩

theorem mem_calls {c : IndirectCall} : c ∈ (flowOf m k shared).calls.getD v [] ↔
    c ∈ k.indirectCalls ∧ shared c.pointer.index = v := by
  rw [flowOf, mem_fileUnder, List.mem_map]
  constructor
  · rintro ⟨c', hc, h⟩
    cases h
    exact ⟨hc, rfl⟩
  · rintro ⟨hc, rfl⟩
    exact ⟨c, hc, rfl⟩

/-- A solution satisfies the flow when nodes that share a set have the same one. -/
theorem ConstraintSet.SolvedBy.admits (hm : m.Linked) (hk : k.SolvedBy m val T)
    (hshared : ∀ n, val (shared n) = val n) : (flowOf m k shared).Admits val T where
  shared := hshared
  load v d hd o ho := by
    obtain ⟨x, p, hc, rfl, rfl⟩ := mem_loads.mp hd
    rw [hshared] at ho ⊢
    exact hk.holds _ hc o ho
  store v d hd o ho := by
    obtain ⟨p, y, hc, rfl, rfl⟩ := mem_stores.mp hd
    rw [hshared] at ho ⊢
    exact hk.holds _ hc o ho
  call v c hc o ho f hf := by
    obtain ⟨hmem, rfl⟩ := mem_calls.mp hc
    obtain ⟨hdef, fn, hfn, rfl⟩ := (target?_eq_some hm).mp hf
    rw [hshared] at ho
    exact hk.calls c hmem f fn hdef hfn ho

/-! ## Shared sets -/

theorem mem_copyEdges {u w : Node} : (u, w) ∈ copyEdges k ↔
    ∃ x y, .copy x y ∈ k.constraints ∧ y.index = u ∧ x.index = w := by
  rw [copyEdges, List.mem_filterMap]
  constructor
  · rintro ⟨c, hc, h⟩
    cases c with
    | copy x y =>
      cases h
      exact ⟨x, y, hc, rfl, rfl⟩
    | _ => cases h
  · rintro ⟨x, y, hc, rfl, rfl⟩
    exact ⟨_, hc, rfl⟩

/-- Along a path of edges the sets only grow. -/
theorem subset_of_reaches {edges : List (Node × Node)}
    (hedges : ∀ u w, (u, w) ∈ edges → val u ⊆ val w) {u w : Node}
    (h : Relation.ReflTransGen (Graph.Edge edges) u w) : val u ⊆ val w := by
  induction h with
  | refl => exact subset_rfl
  | tail _ hvw ih => exact ih.trans (hedges _ _ hvw)

/-- The cycles of copies along which sets are shared. -/
def cyclesOf (k : ConstraintSet) (share : Bool) : Partition Node :=
  .ofEdges [] (if share then copyEdges k else [])

theorem representative_cyclesOf (k : ConstraintSet) (share : Bool) (n : Node) :
    (cyclesOf k share).representative ((cyclesOf k share).representative n) =
      (cyclesOf k share).representative n := representative_idem n

/-- In a solution, nodes that share a set have the same set anyway. -/
theorem ConstraintSet.SolvedBy.representative (hk : k.SolvedBy m val T) (share : Bool) (n : Node) :
    val ((cyclesOf k share).representative n) = val n := by
  have hedges : ∀ u w, (u, w) ∈ (if share then copyEdges k else []) → val u ⊆ val w := by
    intro u w huw
    split at huw
    · obtain ⟨x, y, hc, rfl, rfl⟩ := mem_copyEdges.mp huw
      exact hk.holds _ hc
    · cases huw
  obtain ⟨hto, hfrom⟩ : Graph.Mutual (if share then copyEdges k else []) n
      ((cyclesOf k share).representative n) := representative_mutual n
  exact (subset_of_reaches hedges hfrom).antisymm (subset_of_reaches hedges hto)

/-! ## The start -/

/-- The first sets with those of one more constraint. -/
def allocate (shared : Node → Node) (sets : Std.ExtTreeMap Node Objects) :
    Constraint → Std.ExtTreeMap Node Objects
  | .alloc x o => sets.insert (shared x.index) ((sets.getD (shared x.index) ∅).insert o)
  | _ => sets

/-- The first edges with one more copy. -/
def connect (shared : Node → Node) (edges : Std.ExtTreeMap Node (Std.ExtTreeSet Node))
    (e : Node × Node) : Std.ExtTreeMap Node (Std.ExtTreeSet Node) :=
  if shared e.1 = shared e.2 then edges
  else edges.insert (shared e.1) ((edges.getD (shared e.1) ∅).insert (shared e.2))

theorem startOf_eq (k : ConstraintSet) (shared : Node → Node) :
    startOf k shared =
      { sets := k.constraints.foldl (allocate shared) ∅
        edges := (copyEdges k).foldl (connect shared) ∅
        worklist := (k.constraints.foldl (allocate shared) ∅).keys } := by
  rfl

theorem mem_foldl_allocate (cs : List Constraint) (sets : Std.ExtTreeMap Node Objects) :
    o ∈ (cs.foldl (allocate shared) sets).getD n ∅ ↔
      o ∈ sets.getD n ∅ ∨ ∃ x, .alloc x o ∈ cs ∧ shared x.index = n := by
  induction cs generalizing sets with
  | nil => simp
  | cons c cs ih =>
    rw [List.foldl_cons, ih]
    cases c with
    | alloc x a =>
      rw [allocate, mem_getD_insert_insert, or_assoc]
      refine or_congr_right ?_
      constructor
      · rintro (⟨rfl, rfl⟩ | ⟨y, hy, hn⟩)
        · exact ⟨x, List.mem_cons_self, rfl⟩
        · exact ⟨y, List.mem_cons_of_mem _ hy, hn⟩
      · rintro ⟨y, hy, rfl⟩
        rcases List.mem_cons.mp hy with h | hy
        · cases h
          exact .inl ⟨rfl, rfl⟩
        · exact .inr ⟨y, hy, rfl⟩
    | _ => simp [allocate]

theorem exists_mem_of_mem_foldl_allocate (cs : List Constraint)
    (sets : Std.ExtTreeMap Node Objects) (hsets : ∀ n ∈ sets, ∃ o, o ∈ sets.getD n ∅) :
    ∀ n ∈ cs.foldl (allocate shared) sets, ∃ o, o ∈ (cs.foldl (allocate shared) sets).getD n ∅ := by
  induction cs generalizing sets with
  | nil => exact hsets
  | cons c cs ih =>
    refine ih _ fun n hn => ?_
    cases c with
    | alloc x a =>
      rw [allocate] at hn ⊢
      simp only [mem_getD_insert_insert]
      rcases Std.ExtTreeMap.mem_insert.mp hn with h | hn
      · exact ⟨a, .inr ⟨(Std.LawfulEqCmp.compare_eq_iff_eq.mp h).symm, rfl⟩⟩
      · obtain ⟨o, ho⟩ := hsets n hn
        exact ⟨o, .inl ho⟩
    | _ => exact hsets n hn

theorem mem_foldl_connect {u w : Node} (es : List (Node × Node))
    (edges : Std.ExtTreeMap Node (Std.ExtTreeSet Node)) :
    w ∈ (es.foldl (connect shared) edges).getD u ∅ ↔
      w ∈ edges.getD u ∅ ∨ u ≠ w ∧ ∃ e ∈ es, shared e.1 = u ∧ shared e.2 = w := by
  induction es generalizing edges with
  | nil => simp
  | cons e es ih =>
    rw [List.foldl_cons, ih, connect]
    split
    · next heq =>
      refine or_congr_right (and_congr_right fun hne => ?_)
      simp only [List.mem_cons, exists_eq_or_imp]
      refine (or_iff_right ?_).symm
      rintro ⟨rfl, rfl⟩
      exact hne heq
    · next hne =>
      rw [mem_getD_insert_insert, or_assoc]
      refine or_congr_right ?_
      simp only [List.mem_cons, exists_eq_or_imp]
      constructor
      · rintro (⟨rfl, rfl⟩ | ⟨huw, h⟩)
        · exact ⟨hne, .inl ⟨rfl, rfl⟩⟩
        · exact ⟨huw, .inr h⟩
      · rintro ⟨huw, ⟨rfl, rfl⟩ | h⟩
        · exact .inl ⟨rfl, rfl⟩
        · exact .inr ⟨huw, h⟩

/-- At the start a node has the objects that it is given. -/
theorem mem_objects_startOf : o ∈ (startOf k shared).objects n ↔
    ∃ x, .alloc x o ∈ k.constraints ∧ shared x.index = n := by
  rw [startOf_eq, Run.objects, mem_foldl_allocate]
  simp

theorem mem_successors_startOf {u w : Node} : w ∈ (startOf k shared).successors u ↔
    u ≠ w ∧ ∃ x y, .copy x y ∈ k.constraints ∧ shared y.index = u ∧ shared x.index = w := by
  rw [startOf_eq, Run.successors, mem_foldl_connect, Std.ExtTreeMap.getD_empty]
  rw [or_iff_right Std.ExtTreeSet.not_mem_empty]
  refine and_congr_right fun _ => ?_
  constructor
  · rintro ⟨e, he, hu, hw⟩
    obtain ⟨x, y, hc, hy, hx⟩ := mem_copyEdges.mp he
    exact ⟨x, y, hc, hy ▸ hu, hx ▸ hw⟩
  · rintro ⟨x, y, hc, hu, hw⟩
    exact ⟨(y.index, x.index), mem_copyEdges.mpr ⟨x, y, hc, rfl, rfl⟩, hu, hw⟩

theorem mem_worklist_startOf : n ∈ (startOf k shared).worklist ↔
    ∃ o, o ∈ (startOf k shared).objects n := by
  rw [startOf_eq, Std.ExtTreeMap.mem_keys]
  constructor
  · exact exists_mem_of_mem_foldl_allocate _ _ (by simp) n
  · rintro ⟨o, ho⟩
    by_contra hnot
    rw [Run.objects, Std.ExtTreeMap.getD_eq_fallback hnot] at ho
    exact Std.ExtTreeSet.not_mem_empty ho

theorem nodup_worklist_startOf : (startOf k shared).worklist.Nodup := by
  rw [startOf_eq]
  exact Std.ExtTreeMap.nodup_keys

/-- At the start a node that is not on the worklist has an empty set, which calls for
nothing. -/
theorem settled_startOf (p : Flow) : (startOf k shared).Settled p := by
  intro n hn
  have hempty : ∀ o, o ∉ (startOf k shared).objects n := fun o ho =>
    hn (mem_worklist_startOf.mpr ⟨o, ho⟩)
  exact ⟨.of_empty hempty, fun _ _ o ho => absurd ho (hempty o)⟩

/-- The start makes nothing up. -/
theorem below_startOf (hk : k.SolvedBy m val T) (hshared : ∀ n, val (shared n) = val n) :
    (startOf k shared).Below val T where
  objects n o ho := by
    obtain ⟨x, hc, rfl⟩ := mem_objects_startOf.mp ho
    rw [hshared]
    exact hk.holds _ hc
  successors u w hw := by
    obtain ⟨-, x, y, hc, rfl, rfl⟩ := mem_successors_startOf.mp hw
    rw [hshared, hshared]
    exact hk.holds _ hc
  resolved c f hf := by
    rw [startOf_eq] at hf
    simp at hf

/-! ## The end -/

/-- What the sets of a finished run are as sets of nodes. -/
def solved (r : Run) (shared : Node → Node) (n : Node) : Set ValueId :=
  {o | o ∈ r.objects (shared n)}

/-- A settled run without anything to look at solves the constraints it started from. -/
theorem solvedBy_of_settled (hm : m.Linked) {r : Run}
    (hidem : ∀ n, shared (shared n) = shared n) (hr : r.Settled (flowOf m k shared))
    (hdone : r.worklist = []) (hgrows : (startOf k shared).Grows r) :
    k.SolvedBy m (solved r shared) fun c f => f ∈ r.resolved.getD c ∅ := by
  have hsettled := fun n => hr n (by rw [hdone]; exact List.not_mem_nil)
  have hjoined : ∀ u w, Run.Joined (flowOf m k shared) r (u, w) →
      solved r shared u ⊆ solved r shared w := by
    rintro u w (heq | hsucc) o ho
    · exact (congrArg (o ∈ r.objects ·) heq).mp ho
    · exact (hsettled (shared u)).2 _ hsucc o ho
  have hedge : ∀ n u w, (u, w) ∈ (flowOf m k shared).edges (shared n) (r.objects (shared n)) →
      solved r shared u ⊆ solved r shared w := fun n u w he =>
    hjoined u w ((hsettled (shared n)).1.edges _ he)
  have hself : ∀ n, solved r shared (shared n) = solved r shared n := fun n => by
    rw [solved, solved, hidem]
  refine ⟨fun c hc => ?_, fun c hc f fn hdef hf ho => ?_⟩
  · cases c with
    | alloc x o => exact hgrows.objects _ o (mem_objects_startOf.mpr ⟨x, hc, rfl⟩)
    | copy x y =>
      refine hjoined _ _ ?_
      by_cases heq : shared y.index = shared x.index
      · exact .inl heq
      · exact .inr (hgrows.successors _ _ (mem_successors_startOf.mpr ⟨heq, x, y, hc, rfl, rfl⟩))
    | load x q =>
      intro o ho
      rw [← hself x.index]
      refine hedge q.index _ _ (Flow.mem_edges.mpr (.inl ⟨?_, o, ho, rfl⟩))
      exact mem_loads.mpr ⟨x, q, hc, rfl, rfl⟩
    | store q y =>
      intro o ho
      rw [← hself y.index]
      refine hedge q.index _ _ (Flow.mem_edges.mpr (.inr (.inl ⟨?_, o, ho, rfl⟩)))
      exact mem_stores.mpr ⟨q, y, hc, rfl, rfl⟩
  · have hres : (c, f) ∈ (flowOf m k shared).resolutions (shared c.pointer.index)
        (r.objects (shared c.pointer.index)) := by
      refine Flow.mem_resolutions.mpr ⟨mem_calls.mpr ⟨hc, rfl⟩, fn.address, ho, ?_⟩
      exact (target?_eq_some hm).mpr ⟨hdef, fn, hf, rfl⟩
    refine ⟨(hsettled _).1.resolutions c f hres, fun x y hxy => ?_⟩
    refine hedge c.pointer.index _ _ (Flow.mem_edges.mpr (.inr (.inr ?_)))
    exact ⟨c, f, hres, x, y, hxy, rfl, rfl⟩

/-! ## Enough steps -/

/-- The objects that constraints make exist. -/
theorem index_lt_of_alloc_mem (hm : m.Linked) {x : ValueId}
    (h : .alloc x o ∈ (ConstraintSet.ofModule m).constraints) : o.index < m.valueCount :=
  ((alloc_mem_constraints hm).mp h).2.index_lt hm

/-- The nodes of all values and memories, and those of operands that are no values. -/
def allNodes (m : Module) : Finset Node :=
  Finset.range (2 * m.valueCount) ∪ (mentioned (.ofModule m)).toFinset

theorem mem_allNodes_of_lt (h : n < 2 * m.valueCount) : n ∈ allNodes m :=
  Finset.mem_union_left _ (Finset.mem_range.mpr h)

theorem mem_allNodes_of_mem_constraints {c : Constraint}
    (h : c ∈ (ConstraintSet.ofModule m).constraints) : c.lhs.index ∈ allNodes m := by
  refine Finset.mem_union_right _ (List.mem_toFinset.mpr (List.mem_append_left _ ?_))
  exact List.mem_flatMap.mpr ⟨c, h, List.mem_cons_self⟩

theorem mem_allNodes_of_mem_indirectCalls {c : IndirectCall}
    (h : c ∈ (ConstraintSet.ofModule m).indirectCalls) : c.call.index ∈ allNodes m := by
  refine Finset.mem_union_right _ (List.mem_toFinset.mpr (List.mem_append_right _ ?_))
  exact List.mem_flatMap.mpr ⟨c, h, List.mem_cons_self⟩

/-- The most that the sets of nodes can be. -/
def allSets (m : Module) (n : Node) : Set ValueId := {o | n ∈ allNodes m ∧ o.index < m.valueCount}

/-- The sets that have everything solve the constraints. -/
theorem solvedBy_allSets (hm : m.Linked) :
    (ConstraintSet.ofModule m).SolvedBy m (allSets m) fun _ => Set.univ where
  holds c hc := by
    have hlhs := mem_allNodes_of_mem_constraints hc
    cases c with
    | alloc x o => exact ⟨hlhs, index_lt_of_alloc_mem hm hc⟩
    | copy x y => exact fun o ho => ⟨hlhs, ho.2⟩
    | load x p => exact fun o _ a ha => ⟨hlhs, ha.2⟩
    | store p y =>
      intro o ho a ha
      have hlt : o.index < m.valueCount := ho.2
      have hcell : m.valueCount + o.index < 2 * m.valueCount := by omega
      exact ⟨mem_allNodes_of_lt hcell, ha.2⟩
  calls c hc f fn _ _ _ := by
    refine ⟨trivial, fun x y hxy o ho => ⟨?_, ho.2⟩⟩
    rcases mem_bindings.mp hxy with ⟨gn, hg, i, hx, -⟩ | ⟨rfl, -⟩
    · have hlt := hm.param f gn hg x (List.mem_of_getElem? hx)
      have hnode : x.index < 2 * m.valueCount := by omega
      exact mem_allNodes_of_lt hnode
    · exact mem_allNodes_of_mem_indirectCalls hc

/-- All nodes of a module with all its objects. -/
def allPairs (m : Module) : Finset (Node × ValueId) :=
  (allNodes m ×ˢ Finset.range m.valueCount).image fun e => (e.1, ⟨e.2⟩)

theorem card_allPairs_le (m : Module) :
    (allPairs m).card ≤ (allNodes m).card * m.valueCount := by
  refine Finset.card_image_le.trans (Nat.le_of_eq ?_)
  rw [Finset.card_product, Finset.card_range]

theorem mem_allPairs {n : Nat} (ho : o ∈ allSets m n) : (n, o) ∈ allPairs m :=
  Finset.mem_image.mpr ⟨(n, o.index),
    Finset.mem_product.mpr ⟨ho.1, Finset.mem_range.mpr ho.2⟩, rfl⟩

theorem card_allNodes_le (m : Module) :
    (allNodes m).card ≤ 2 * m.valueCount + (mentioned (.ofModule m)).length := by
  refine (Finset.card_union_le _ _).trans ?_
  rw [Finset.card_range]
  exact Nat.add_le_add_left (List.toFinset_card_le _) _

/-- At the start there is no more to do than a run has steps for. -/
theorem pending_startOf_le
    (hnodes : ∀ n, ∀ o ∈ (startOf k shared).objects n, n ∈ allNodes m) :
    (startOf k shared).pending (allPairs m) ≤ stepBound m (.ofModule m) := by
  have hwork : (startOf k shared).worklist.length ≤ (allNodes m).card := by
    rw [← List.toFinset_card_of_nodup nodup_worklist_startOf]
    refine Finset.card_le_card fun n hn => ?_
    obtain ⟨o, ho⟩ := mem_worklist_startOf.mp (List.mem_toFinset.mp hn)
    exact hnodes n o ho
  calc (startOf k shared).pending (allPairs m)
      ≤ (allPairs m).card + (startOf k shared).worklist.length :=
        Nat.add_le_add_right (Finset.card_filter_le _ _) _
    _ ≤ (allNodes m).card * m.valueCount + (allNodes m).card :=
        Nat.add_le_add (card_allPairs_le m) hwork
    _ = (allNodes m).card * (m.valueCount + 1) := by rw [Nat.mul_add_one]
    _ ≤ stepBound m (.ofModule m) :=
        Nat.mul_le_mul_right _ ((card_allNodes_le m).trans (Nat.le_add_right _ _))

/-! ## Solutions -/

/-- Whether all operands exist can be found out. -/
theorem operandsExist_iff : OperandsExist m ↔
    ∀ v ∈ m.valueIds, ∀ op ∈ m.operation? v, ∀ x ∈ op.operands, x.index < m.valueCount := by
  constructor
  · exact fun h v _ op hop => h v op hop
  · intro h v op hop
    refine h v (List.mem_map.mpr ⟨v.index, List.mem_range.mpr ?_, rfl⟩) op hop
    exact index_lt_of_operation? hop

instance : Decidable (OperandsExist m) := decidable_of_iff' _ operandsExist_iff

namespace Solution

/-- The objects that the memory of an object may point to. -/
def memory (s : Solution) (o : ValueId) : Objects :=
  s.run.objects (s.cycles.representative (s.valueCount + o.index))

/-- The sets of values, the sets of memories and the functions of calls. -/
def sets (s : Solution) :
    (ValueId → Set ValueId) × (ValueId → Set ValueId) × (ValueId → Set FunctionId) :=
  (fun v => {o | o ∈ s.pointsTo v}, fun c => {o | o ∈ s.memory c},
    fun c => {f | f ∈ s.indirectTargets c})

/-- A module solved without a limit. -/
def unlimited (m : Module) (share : Bool) : Solution :=
  ofModule m { shareCycles := share, limit := 0 }

variable {share : Bool}

theorem run_unlimited (m : Module) (share : Bool) :
    (unlimited m share).run =
      Run.steps (flowOf m (.ofModule m) (cyclesOf (.ofModule m) share).representative)
        (stepBound m (.ofModule m))
        (startOf (.ofModule m) (cyclesOf (.ofModule m) share).representative) := rfl

theorem pointsTo_unlimited (h : o.index < m.valueCount) :
    (unlimited m share).pointsTo o = (unlimited m share).run.objects
      ((cyclesOf (.ofModule m) share).representative o.index) :=
  if_pos h

theorem pointsTo_unlimited_of_le (h : m.valueCount ≤ o.index) :
    (unlimited m share).pointsTo o = ∅ :=
  if_neg (Nat.not_lt.mpr h)

theorem memory_unlimited : (unlimited m share).memory o = (unlimited m share).run.objects
    ((cyclesOf (.ofModule m) share).representative (m.valueCount + o.index)) := rfl

/-- In one row, the sets found are those of the nodes. -/
theorem row_sets : row m (unlimited m share).sets.1 (unlimited m share).sets.2.1 =
    solved (unlimited m share).run (cyclesOf (.ofModule m) share).representative := by
  funext n
  rcases Nat.lt_or_ge n m.valueCount with hn | hn
  · rw [row, if_pos hn, sets, solved]
    simp only [pointsTo_unlimited hn]
  · rw [row, if_neg (Nat.not_lt.mpr hn), sets, solved]
    simp only [memory_unlimited, Nat.add_sub_cancel' hn]

theorem mem_indirectTargets {s : Solution} {c : ValueId} {f : FunctionId} :
    f ∈ s.indirectTargets c ↔ f ∈ s.run.resolved.getD c ∅ := Std.ExtTreeSet.mem_toList

/-- A run stays below every solution. -/
theorem below_unlimited (hm : m.Linked) (hk : (ConstraintSet.ofModule m).SolvedBy m val T) :
    (unlimited m share).run.Below val T := by
  have hshared := hk.representative share
  rw [run_unlimited]
  exact (below_startOf hk hshared).steps (hk.admits hm hshared) _

/-- The steps suffice, so nothing is left to look at. -/
theorem worklist_unlimited (hm : m.Linked) : (unlimited m share).run.worklist = [] := by
  have hall := solvedBy_allSets hm
  have hshared := hall.representative share
  have hstart := below_startOf hall hshared
  rw [run_unlimited]
  refine Run.worklist_steps (fun n o ho => mem_allPairs ho) (hall.admits hm hshared) hstart ?_
  exact pending_startOf_le fun n o ho => (hstart.objects n o ho).1

/-- What the nodes of a module are found to point to solves its constraints. -/
theorem solvedBy_unlimited (hm : m.Linked) :
    (ConstraintSet.ofModule m).SolvedBy m
      (solved (unlimited m share).run (cyclesOf (.ofModule m) share).representative)
      fun c => {f | f ∈ (unlimited m share).indirectTargets c} := by
  have hsettled : (unlimited m share).run.Settled
      (flowOf m (.ofModule m) (cyclesOf (.ofModule m) share).representative) :=
    (settled_startOf _).steps _
  have hgrows := Run.grows_steps
    (flowOf m (.ofModule m) (cyclesOf (.ofModule m) share).representative)
    (startOf (.ofModule m) (cyclesOf (.ofModule m) share).representative)
    (stepBound m (.ofModule m))
  have htargets : (fun c => {f | f ∈ (unlimited m share).indirectTargets c}) =
      fun c => {f | f ∈ (unlimited m share).run.resolved.getD c ∅} := by
    funext c
    exact Set.ext fun f => mem_indirectTargets
  rw [htargets]
  exact solvedBy_of_settled hm (representative_cyclesOf _ share) hsettled
    (worklist_unlimited hm) hgrows

/-- Without a limit the worklist of a built module runs empty, and what its values,
memories and calls are found to point to is the least solution. -/
theorem unlimited_isLeast {l : Listing} (hl : l.build = .ok m) (hops : OperandsExist m)
    (share : Bool) :
    (unlimited m share).run.worklist = [] ∧
      IsLeast {x | Solves m x.1 x.2.1 x.2.2} (unlimited m share).sets := by
  have hm := (Listing.build_eq_ok hl).1.linked
  refine ⟨worklist_unlimited hm, ?_, ?_⟩
  · rw [Set.mem_ofPred_eq, solves_iff hm hops, row_sets]
    exact solvedBy_unlimited hm
  · rintro ⟨P, C, T⟩ hsolves
    have hrow := (solves_iff hm hops).mp hsolves
    have hbelow : (unlimited m share).run.Below (row m P C) T := below_unlimited hm hrow
    have hrep := hrow.representative share
    refine ⟨fun v o ho => ?_, fun c o ho => ?_, fun c f hf => ?_⟩
    · change o ∈ (unlimited m share).pointsTo v at ho
      rcases Nat.lt_or_ge v.index m.valueCount with hv | hv
      · rw [pointsTo_unlimited hv] at ho
        have hval := hbelow.objects _ o ho
        rwa [hrep, row_value hv] at hval
      · rw [pointsTo_unlimited_of_le hv] at ho
        exact absurd ho Std.ExtTreeSet.not_mem_empty
    · change o ∈ (unlimited m share).memory c at ho
      rw [memory_unlimited] at ho
      have hval := hbelow.objects _ o ho
      rwa [hrep, row_memory] at hval
    · exact hbelow.resolved c f (mem_indirectTargets.mp hf)

/-- A function that gives back its argument is stored, loaded and called with a global. -/
def identityCall : Listing where
  name := "m"
  items := [.global "g", .declare "id" ["x"] false, .declare "main" [] false,
    .define ⟨0⟩ [.ret (some ⟨2⟩)],
    .define ⟨1⟩ [.instruction "p" .alloca, .store ⟨1⟩ ⟨5⟩, .instruction "f" (.load ⟨5⟩),
      .instruction "r" (.call (.indirect ⟨7⟩) [⟨0⟩]), .ret none]]

theorem unlimited_isLeast_identityCall : ∃ m, identityCall.build = .ok m ∧ OperandsExist m ∧
    ∀ share, (unlimited m share).run.worklist = [] ∧
      IsLeast {x | Solves m x.1 x.2.1 x.2.2} (unlimited m share).sets := by
  have hcheck : (identityCall.build.toOption.any fun m => OperandsExist m) = true := by
    decide +kernel
  cases hl : identityCall.build with
  | error e =>
    rw [hl] at hcheck
    cases hcheck
  | ok m =>
    rw [hl] at hcheck
    have hops : OperandsExist m := of_decide_eq_true hcheck
    exact ⟨m, rfl, hops, unlimited_isLeast hl hops⟩

end Solution

end PmemPaths.PointsTo
