import Mathlib.Data.Finset.Card
import Mathlib.Data.Set.Basic
import PmemPaths.PointsTo.Solution

/-!
# The worklist of a points-to run

Everything that looking at a node does is made of three small changes: a set is
sent to a node, an edge is added, an indirect call is resolved.  Two things are
proved of them, and lifted to whole runs.

*Nothing is lost.*  Sets, edges and resolutions only grow, and a node whose set has
grown is on the worklist (`Run.Advances`).  So a node that is not on the worklist
has had its say with the very set it has now (`Run.Settled`), and when the worklist
is empty, that is true of all nodes.

*Nothing is made up.*  Whatever sets of nodes satisfy the flow include the sets of
the run, as long as they did at the start (`Run.Below`).
-/

namespace PmemPaths.PointsTo

open PmemPaths.Ir (ValueId FunctionId)

variable {p : Flow} {r s t : Run} {known : Objects} {n u v w : Node} {o : ValueId}
  {c : ValueId} {f : FunctionId}

/-! ## Sets in tables -/

/-- A set in a table gets one element more, and the other sets stay. -/
theorem mem_getD_insert_insert {α β : Type} [Ord α] [Std.TransOrd α] [Std.LawfulEqOrd α]
    [Ord β] [Std.TransOrd β] [Std.LawfulEqOrd β] {m : Std.ExtTreeMap α (Std.ExtTreeSet β)}
    {k l : α} {x y : β} :
    y ∈ (m.insert k ((m.getD k ∅).insert x)).getD l ∅ ↔ y ∈ m.getD l ∅ ∨ (l = k ∧ y = x) := by
  rw [Std.ExtTreeMap.getD_insert]
  split
  · next h =>
    obtain rfl := Std.LawfulEqCmp.compare_eq_iff_eq.mp h
    rw [Std.ExtTreeSet.mem_insert, Std.LawfulEqCmp.compare_eq_iff_eq, or_comm, eq_comm]
    simp
  · next h =>
    rw [Std.LawfulEqCmp.compare_eq_iff_eq] at h
    simp [Ne.symm h]

/-! ## What a set calls for -/

/-- A set resolves the indirect calls through its node to the functions its objects stand
for. -/
theorem Flow.mem_resolutions {c : IndirectCall} : (c, f) ∈ p.resolutions v known ↔
    c ∈ p.calls.getD v [] ∧ ∃ o ∈ known, p.target? o = some f := by
  simp [resolutions, targets, Std.ExtTreeSet.mem_toList]

/-- A set calls for edges from the cells of its objects to what is loaded, from what is
stored to those cells, and between what resolved calls bind. -/
theorem Flow.mem_edges : (u, w) ∈ p.edges v known ↔
    (w ∈ p.loads.getD v [] ∧ ∃ o ∈ known, u = p.cell o) ∨
    (u ∈ p.stores.getD v [] ∧ ∃ o ∈ known, w = p.cell o) ∨
    ∃ c f, (c, f) ∈ p.resolutions v known ∧
      ∃ x y, (x, y) ∈ p.bindings f c ∧ u = y.index ∧ w = x.index := by
  rw [edges, List.mem_append, List.mem_append, or_assoc]
  refine or_congr ?_ (or_congr ?_ ?_)
  · simp only [List.mem_flatMap, List.mem_map, Std.ExtTreeSet.mem_toList, Prod.mk.injEq]
    constructor
    · rintro ⟨d, hd, o, ho, rfl, rfl⟩
      exact ⟨hd, o, ho, rfl⟩
    · rintro ⟨hd, o, ho, rfl⟩
      exact ⟨w, hd, o, ho, rfl, rfl⟩
  · simp only [List.mem_flatMap, List.mem_map, Std.ExtTreeSet.mem_toList, Prod.mk.injEq]
    constructor
    · rintro ⟨s, hs, o, ho, rfl, rfl⟩
      exact ⟨hs, o, ho, rfl⟩
    · rintro ⟨hs, o, ho, rfl⟩
      exact ⟨u, hs, o, ho, rfl, rfl⟩
  · simp only [List.mem_flatMap, List.mem_map, Prod.exists, Prod.mk.injEq]
    constructor
    · rintro ⟨c, f, hcf, x, y, hxy, rfl, rfl⟩
      exact ⟨c, f, hcf, x, y, hxy, rfl, rfl⟩
    · rintro ⟨c, f, hcf, x, y, hxy, rfl, rfl⟩
      exact ⟨c, f, hcf, x, y, hxy, rfl, rfl⟩

namespace Run

/-! ## The small changes -/

theorem mem_insertMany_toList {old : Objects} :
    o ∈ old.insertMany known.toList ↔ o ∈ old ∨ o ∈ known := by
  rw [Std.ExtTreeSet.mem_insertMany_list, List.contains_iff_mem, Std.ExtTreeSet.mem_toList]

/-- Sending what is there already does nothing. -/
theorem insertMany_toList_eq {old : Objects} :
    old.insertMany known.toList = old ↔ ∀ o ∈ known, o ∈ old := by
  constructor
  · intro h o ho
    rw [← h]
    exact mem_insertMany_toList.mpr (.inr ho)
  · intro h
    refine Std.ExtTreeSet.ext_mem fun o => ?_
    rw [mem_insertMany_toList]
    exact or_iff_left_of_imp (h o)

/-- Sending adds to the set of one node. -/
theorem mem_objects_send :
    o ∈ (r.send known w).objects n ↔ o ∈ r.objects n ∨ (n = w ∧ o ∈ known) := by
  rw [send]
  split
  · next h =>
    rw [insertMany_toList_eq] at h
    refine (or_iff_left_of_imp ?_).symm
    rintro ⟨rfl, ho⟩
    exact h o ho
  · rw [objects, Std.ExtTreeMap.getD_insert]
    split
    · next h =>
      obtain rfl := Std.LawfulEqCmp.compare_eq_iff_eq.mp h
      rw [mem_insertMany_toList]
      simp
    · next h =>
      rw [Std.LawfulEqCmp.compare_eq_iff_eq] at h
      simp [objects, Ne.symm h]

theorem successors_send : (r.send known w).successors n = r.successors n := by
  rw [send]
  split
  · rfl
  · rfl

theorem resolved_send : (r.send known w).resolved = r.resolved := by
  rw [send]
  split
  · rfl
  · rfl

/-- A node goes on the worklist when it is sent an object it did not have. -/
theorem mem_worklist_send : n ∈ (r.send known w).worklist ↔
    n ∈ r.worklist ∨ (n = w ∧ ∃ o ∈ known, o ∉ r.objects w) := by
  rw [send]
  split
  · next h =>
    rw [insertMany_toList_eq] at h
    refine (or_iff_left_of_imp ?_).symm
    rintro ⟨-, o, ho, hn⟩
    exact absurd (h o ho) hn
  · next h =>
    rw [insertMany_toList_eq] at h
    push Not at h
    simp only [h, and_true]
    split
    · next hw =>
      refine (or_iff_left_of_imp ?_).symm
      rintro rfl
      exact hw
    · rw [List.mem_append, List.mem_singleton]

/-- The run with one more edge. -/
def withEdge (r : Run) (u w : Node) : Run :=
  { r with edges := r.edges.insert u ((r.successors u).insert w) }

theorem mem_successors_withEdge :
    v ∈ (r.withEdge u w).successors n ↔ v ∈ r.successors n ∨ (n = u ∧ v = w) :=
  mem_getD_insert_insert

/-- An edge that is there already is not added; any other one takes along what its
source has. -/
theorem addEdge_cases (p : Flow) (r : Run) (e : Node × Node) :
    (addEdge p r e = r ∧
      (p.shared e.1 = p.shared e.2 ∨ p.shared e.2 ∈ r.successors (p.shared e.1))) ∨
    addEdge p r e =
      (r.withEdge (p.shared e.1) (p.shared e.2)).send (r.objects (p.shared e.1))
        (p.shared e.2) := by
  simp only [addEdge]
  split
  · next h =>
    rw [Bool.or_eq_true, decide_eq_true_eq, Std.ExtTreeSet.contains_iff_mem] at h
    exact .inl ⟨rfl, h⟩
  · exact .inr rfl

theorem mem_resolved_resolve {call d : ValueId} {g : FunctionId} :
    g ∈ (r.resolve call f).resolved.getD d ∅ ↔
      g ∈ r.resolved.getD d ∅ ∨ (d = call ∧ g = f) :=
  mem_getD_insert_insert

/-! ## Nothing is lost -/

/-- The set of a node has reached all nodes behind its edges. -/
def Passed (r : Run) (n : Node) : Prop := ∀ w ∈ r.successors n, ∀ o ∈ r.objects n, o ∈ r.objects w

/-- Sets, edges and resolutions are added. -/
structure Grows (r s : Run) : Prop where
  objects : ∀ n, ∀ o ∈ r.objects n, o ∈ s.objects n
  successors : ∀ n, ∀ w ∈ r.successors n, w ∈ s.successors n
  resolved : ∀ c, ∀ f ∈ r.resolved.getD c ∅, f ∈ s.resolved.getD c ∅

/-- What any change does: it adds, and leaves alone the sets of the nodes that are
not on the worklist afterwards. -/
structure Advances (r s : Run) : Prop extends Grows r s where
  worklist : ∀ n ∈ r.worklist, n ∈ s.worklist
  unchanged : ∀ n, n ∉ s.worklist → s.objects n = r.objects n
  passed : ∀ n, n ∉ s.worklist → r.Passed n → s.Passed n

theorem Grows.refl (r : Run) : r.Grows r := ⟨fun _ _ h => h, fun _ _ h => h, fun _ _ h => h⟩

theorem Grows.trans (h : r.Grows s) (h' : s.Grows t) : r.Grows t where
  objects n o ho := h'.objects n o (h.objects n o ho)
  successors n w hw := h'.successors n w (h.successors n w hw)
  resolved c f hf := h'.resolved c f (h.resolved c f hf)

theorem Advances.refl (r : Run) : r.Advances r where
  toGrows := .refl r
  worklist _ h := h
  unchanged _ _ := rfl
  passed _ _ h := h

/-- A node that is off the worklist at the end was off it in between, so no step changed its
set. -/
theorem Advances.trans (h : r.Advances s) (h' : s.Advances t) : r.Advances t where
  toGrows := h.toGrows.trans h'.toGrows
  worklist n hn := h'.worklist n (h.worklist n hn)
  unchanged n hn := (h'.unchanged n hn).trans (h.unchanged n fun hs => hn (h'.worklist n hs))
  passed n hn hp := h'.passed n hn (h.passed n (fun hs => hn (h'.worklist n hs)) hp)

/-- A loop advances if its rounds do, by induction on what it goes through. -/
theorem Advances.foldl {β : Type} {step : Run → β → Run}
    (hstep : ∀ (r : Run) b, r.Advances (step r b)) (bs : List β) (r : Run) :
    r.Advances (bs.foldl step r) := by
  induction bs generalizing r with
  | nil => exact .refl r
  | cons b bs ih => exact (hstep r b).trans (ih (step r b))

theorem objects_eq_of_not_mem_worklist (hn : n ∉ (r.send known w).worklist) :
    (r.send known w).objects n = r.objects n := by
  refine Std.ExtTreeSet.ext_mem fun o => ?_
  rw [mem_objects_send]
  refine or_iff_left_of_imp ?_
  rintro ⟨rfl, ho⟩
  by_contra hnot
  exact hn (mem_worklist_send.mpr (.inr ⟨rfl, o, ho, hnot⟩))

/-- A node whose set grows is on the worklist afterwards. -/
theorem advances_send (r : Run) (known : Objects) (w : Node) : r.Advances (r.send known w) where
  objects n o ho := mem_objects_send.mpr (.inl ho)
  successors n v hv := by rwa [successors_send]
  resolved c f hf := by rwa [resolved_send]
  worklist n hn := mem_worklist_send.mpr (.inl hn)
  unchanged n hn := objects_eq_of_not_mem_worklist hn
  passed n hn hp := by
    intro v hv o ho
    rw [successors_send] at hv
    rw [objects_eq_of_not_mem_worklist hn] at ho
    exact mem_objects_send.mpr (.inl (hp v hv o ho))

/-- A new edge takes along what its source has, so a source that has passed on its set still
has. -/
theorem advances_addEdge (p : Flow) (r : Run) (e : Node × Node) : r.Advances (addEdge p r e) := by
  rcases addEdge_cases p r e with ⟨h, -⟩ | h
  · rw [h]
    exact .refl r
  · rw [h]
    -- Adding the edge alone may leave its source not passed, sending makes up for it.
    have hsend := advances_send (r.withEdge (p.shared e.1) (p.shared e.2))
      (r.objects (p.shared e.1)) (p.shared e.2)
    refine ⟨⟨hsend.objects, fun n w hw => hsend.successors n w ?_, hsend.resolved⟩,
      hsend.worklist, hsend.unchanged, fun n hn hp => ?_⟩
    · exact mem_successors_withEdge.mpr (.inl hw)
    · intro v hv o ho
      rw [successors_send] at hv
      rw [hsend.unchanged n hn] at ho
      rw [mem_objects_send]
      rcases mem_successors_withEdge.mp hv with hv | ⟨rfl, rfl⟩
      · exact .inl (hp v hv o ho)
      · exact .inr ⟨rfl, ho⟩

theorem advances_resolve (r : Run) (c : ValueId) (f : FunctionId) : r.Advances (r.resolve c f) where
  objects _ _ h := h
  successors _ _ h := h
  resolved _ _ h := mem_resolved_resolve.mpr (.inl h)
  worklist _ h := h
  unchanged _ _ := rfl
  passed _ _ h := h

/-- Both ends of the edge share a set, or the edge is there. -/
def Joined (p : Flow) (r : Run) (e : Node × Node) : Prop :=
  p.shared e.1 = p.shared e.2 ∨ p.shared e.2 ∈ r.successors (p.shared e.1)

theorem Joined.grows {e : Node × Node} (h : Joined p r e) (hg : r.Grows s) : Joined p s e :=
  h.imp_right (hg.successors _ _)

/-- After it was added an edge is there, unless its ends share a set. -/
theorem joined_addEdge (p : Flow) (r : Run) (e : Node × Node) : Joined p (addEdge p r e) e := by
  rcases addEdge_cases p r e with ⟨h, hj⟩ | h
  · rw [h]
    exact hj
  · right
    rw [h, successors_send]
    exact mem_successors_withEdge.mpr (.inr ⟨rfl, rfl⟩)

/-- A node has had its say: the edges and resolutions that a set of it calls for are
there. -/
structure Heard (p : Flow) (r : Run) (n : Node) (known : Objects) : Prop where
  edges : ∀ e ∈ p.edges n known, Joined p r e
  resolutions : ∀ c f, (c, f) ∈ p.resolutions n known → f ∈ r.resolved.getD c.call ∅

/-- What a node has said stays said. -/
theorem Heard.grows (h : Heard p r n known) (hg : r.Grows s) : Heard p s n known where
  edges e he := (h.edges e he).grows hg
  resolutions c f hf := hg.resolved _ _ (h.resolutions c f hf)

theorem Heard.of_empty (h : ∀ o, o ∉ known) : Heard p r n known where
  edges e he := by
    rcases Flow.mem_edges.mp he with ⟨-, o, ho, -⟩ | ⟨-, o, ho, -⟩ | ⟨c, f, hcf, -⟩
    · exact absurd ho (h o)
    · exact absurd ho (h o)
    · obtain ⟨-, o, ho, -⟩ := Flow.mem_resolutions.mp hcf
      exact absurd ho (h o)
  resolutions c f hcf := by
    obtain ⟨-, o, ho, -⟩ := Flow.mem_resolutions.mp hcf
    exact absurd ho (h o)

/-- What a round of a loop makes true, it stays true to its end. -/
theorem forall_mem_foldl {β : Type} {step : Run → β → Run} {Q : Run → β → Prop}
    (hstep : ∀ (r : Run) b, r.Advances (step r b)) (hmade : ∀ r b, Q (step r b) b)
    (hkept : ∀ (r s : Run) b, r.Grows s → Q r b → Q s b) (bs : List β) (r : Run) :
    ∀ b ∈ bs, Q (bs.foldl step r) b := by
  induction bs generalizing r with
  | nil => simp
  | cons b bs ih =>
    rw [List.forall_mem_cons]
    exact ⟨hkept _ _ b (Advances.foldl hstep bs (step r b)).toGrows (hmade r b), ih (step r b)⟩

/-! ## Looking at a node -/

/-- The run after the resolutions that a set of a node calls for. -/
def resolveAll (p : Flow) (r : Run) (v : Node) (known : Objects) : Run :=
  (p.resolutions v known).foldl (fun r e => r.resolve e.1.call e.2) r

/-- The run after the edges that a set of a node calls for. -/
def addEdges (p : Flow) (r : Run) (v : Node) (known : Objects) : Run :=
  (p.edges v known).foldl (addEdge p) r

/-- The run after a set was sent along the edges that leave a node. -/
def sendAll (r : Run) (v : Node) (known : Objects) : Run :=
  (r.successors v).toList.foldl (fun r w => r.send known w) r

/-- Looking at a node resolves, then adds edges, then sends, each time with the set from
before. -/
theorem visit_eq (p : Flow) (r : Run) (v : Node) :
    visit p r v =
      (addEdges p (resolveAll p r v (r.objects v)) v (r.objects v)).sendAll v (r.objects v) := rfl

theorem advances_resolveAll : r.Advances (resolveAll p r v known) :=
  .foldl (fun r (e : IndirectCall × FunctionId) => advances_resolve r e.1.call e.2) _ _

theorem advances_addEdges : r.Advances (addEdges p r v known) := .foldl (advances_addEdge p) _ _

theorem advances_sendAll : r.Advances (sendAll r v known) :=
  .foldl (fun r w => advances_send r known w) _ _

theorem advances_visit (p : Flow) (r : Run) (v : Node) : r.Advances (visit p r v) :=
  (advances_resolveAll.trans advances_addEdges).trans advances_sendAll

theorem resolved_resolveAll :
    ∀ e ∈ p.resolutions v known, e.2 ∈ (resolveAll p r v known).resolved.getD e.1.call ∅ :=
  forall_mem_foldl (Q := fun s (e : IndirectCall × FunctionId) => e.2 ∈ s.resolved.getD e.1.call ∅)
    (fun r (e : IndirectCall × FunctionId) => advances_resolve r e.1.call e.2)
    (fun _ _ => mem_resolved_resolve.mpr (.inr ⟨rfl, rfl⟩))
    (fun _ _ e hg he => hg.resolved e.1.call e.2 he) _ r

theorem joined_addEdges : ∀ e ∈ p.edges v known, Joined p (addEdges p r v known) e :=
  forall_mem_foldl (advances_addEdge p) (joined_addEdge p) (fun _ _ _ hg hj => hj.grows hg) _ r

theorem sent_sendAll :
    ∀ w ∈ r.successors v, ∀ o ∈ known, o ∈ (sendAll r v known).objects w := by
  intro w hw
  refine forall_mem_foldl (Q := fun s w => ∀ o ∈ known, o ∈ s.objects w)
    (fun r w => advances_send r known w) (fun _ _ o ho => ?_)
    (fun _ _ w hg h o ho => hg.objects w o (h o ho)) _ r w (Std.ExtTreeSet.mem_toList.mpr hw)
  exact mem_objects_send.mpr (.inr ⟨rfl, ho⟩)

theorem successors_sendAll : (sendAll r v known).successors n = r.successors n := by
  rw [sendAll]
  generalize (r.successors v).toList = ws
  induction ws generalizing r with
  | nil => rfl
  | cons w ws ih => exact (ih (r := r.send known w)).trans successors_send

/-- A node that was looked at has had its say with the set from before. -/
theorem heard_visit (p : Flow) (r : Run) (v : Node) : Heard p (visit p r v) v (r.objects v) where
  edges e he := (joined_addEdges e he).grows advances_sendAll.toGrows
  resolutions c f hf :=
    (advances_addEdges.trans advances_sendAll).resolved _ _ (resolved_resolveAll (c, f) hf)

/-- A node whose set did not change meanwhile has passed it on. -/
theorem passed_visit (hv : v ∉ (visit p r v).worklist) : (visit p r v).Passed v := by
  intro w hw o ho
  rw [(advances_visit p r v).unchanged v hv] at ho
  rw [visit_eq, successors_sendAll] at hw
  exact sent_sendAll w hw o ho

/-- Every node that is not on the worklist has had its say with the set it has, which
has reached all nodes behind its edges. -/
def Settled (p : Flow) (r : Run) : Prop :=
  ∀ n, n ∉ r.worklist → Heard p r n (r.objects n) ∧ r.Passed n

/-- The run without the first node of its worklist. -/
def popped (r : Run) (rest : List Node) : Run := { r with worklist := rest }

/-- The node taken off the worklist has had its say or is on it again, and the others are as
they were. -/
theorem Settled.visit {rest : List Node} (h : Settled p r) (hr : r.worklist = v :: rest) :
    Settled p (visit p (r.popped rest) v) := by
  intro n hn
  have ha := advances_visit p (r.popped rest) v
  have hobj : (Run.visit p (r.popped rest) v).objects n = r.objects n := ha.unchanged n hn
  rw [hobj]
  by_cases hnv : n = v
  · subst hnv
    exact ⟨heard_visit p (r.popped rest) n, passed_visit hn⟩
  · have hold : n ∉ r.worklist := by
      rw [hr, List.mem_cons]
      rintro (rfl | hmem)
      · exact hnv rfl
      · exact hn (ha.worklist n hmem)
    obtain ⟨hheard, hpassed⟩ := h n hold
    exact ⟨Heard.grows (r := r.popped rest) ⟨hheard.edges, hheard.resolutions⟩ ha.toGrows,
      ha.passed n hn hpassed⟩

theorem steps_succ {k : Nat} {rest : List Node} (hr : r.worklist = v :: rest) :
    steps p (k + 1) r = steps p k (Run.visit p (r.popped rest) v) := by
  rw [steps, hr]
  rfl

theorem steps_nil {k : Nat} (hr : r.worklist = []) : steps p k r = r := by
  cases k with
  | zero => rfl
  | succ k => rw [steps, hr]

/-- A settled run stays settled, by induction on the steps. -/
theorem Settled.steps (h : Settled p r) (k : Nat) : Settled p (steps p k r) := by
  induction k generalizing r with
  | zero => exact h
  | succ k ih =>
    cases hr : r.worklist with
    | nil => rwa [steps_nil hr]
    | cons v rest =>
      rw [steps_succ hr]
      exact ih (h.visit hr)

theorem grows_steps (p : Flow) (r : Run) (k : Nat) : r.Grows (steps p k r) := by
  induction k generalizing r with
  | zero => exact .refl r
  | succ k ih =>
    cases hr : r.worklist with
    | nil =>
      rw [steps_nil hr]
      exact .refl r
    | cons v rest =>
      rw [steps_succ hr]
      have hpop : r.Grows (r.popped rest) := ⟨fun _ _ h => h, fun _ _ h => h, fun _ _ h => h⟩
      exact (hpop.trans (advances_visit p (r.popped rest) v).toGrows).trans (ih _)

end Run

/-! ## Nothing is made up -/

/-- Sets of nodes satisfy a flow. -/
structure Flow.Admits (p : Flow) (val : Node → Set ValueId) (T : ValueId → Set FunctionId) :
    Prop where
  shared : ∀ n, val (p.shared n) = val n
  load : ∀ v d, d ∈ p.loads.getD v [] → ∀ o ∈ val v, val (p.cell o) ⊆ val d
  store : ∀ v s, s ∈ p.stores.getD v [] → ∀ o ∈ val v, val s ⊆ val (p.cell o)
  call : ∀ v c, c ∈ p.calls.getD v [] → ∀ o ∈ val v, ∀ f, p.target? o = some f →
    f ∈ T c.call ∧ ∀ x y, (x, y) ∈ p.bindings f c → val y.index ⊆ val x.index

namespace Flow.Admits

variable {val : Node → Set ValueId} {T : ValueId → Set FunctionId}

/-- An edge that a set calls for leads from a set to one that includes it. -/
theorem edge (h : p.Admits val T) (hk : ∀ o ∈ known, o ∈ val v) (he : (u, w) ∈ p.edges v known) :
    val u ⊆ val w := by
  rcases Flow.mem_edges.mp he with
    ⟨hd, o, ho, rfl⟩ | ⟨hs, o, ho, rfl⟩ | ⟨c, f, hcf, x, y, hxy, rfl, rfl⟩
  · exact h.load v w hd o (hk o ho)
  · exact h.store v u hs o (hk o ho)
  · obtain ⟨hc, o, ho, hf⟩ := Flow.mem_resolutions.mp hcf
    exact (h.call v c hc o (hk o ho) f hf).2 x y hxy

/-- A function that a call is resolved to is among its targets. -/
theorem resolution (h : p.Admits val T) (hk : ∀ o ∈ known, o ∈ val v) {c : IndirectCall}
    (hcf : (c, f) ∈ p.resolutions v known) : f ∈ T c.call := by
  obtain ⟨hc, o, ho, hf⟩ := Flow.mem_resolutions.mp hcf
  exact (h.call v c hc o (hk o ho) f hf).1

end Flow.Admits

namespace Run

/-- All that a run knows is so. -/
structure Below (r : Run) (val : Node → Set ValueId) (T : ValueId → Set FunctionId) : Prop where
  objects : ∀ n, ∀ o ∈ r.objects n, o ∈ val n
  successors : ∀ n, ∀ w ∈ r.successors n, val n ⊆ val w
  resolved : ∀ c, ∀ f ∈ r.resolved.getD c ∅, f ∈ T c

variable {val : Node → Set ValueId} {T : ValueId → Set FunctionId}

theorem Below.send (h : r.Below val T) (hk : ∀ o ∈ known, o ∈ val w) :
    (r.send known w).Below val T where
  objects n o ho := by
    rcases mem_objects_send.mp ho with hold | ⟨rfl, hnew⟩
    · exact h.objects n o hold
    · exact hk o hnew
  successors n v hv := h.successors n v (by rwa [successors_send] at hv)
  resolved c f hf := h.resolved c f (by rwa [resolved_send] at hf)

/-- An edge between sets of which one includes the other sends nothing made up. -/
theorem Below.addEdge (hp : p.Admits val T) (h : r.Below val T) {e : Node × Node}
    (he : val e.1 ⊆ val e.2) : (addEdge p r e).Below val T := by
  rcases addEdge_cases p r e with ⟨heq, -⟩ | heq
  · rwa [heq]
  · rw [heq]
    rw [← hp.shared e.1, ← hp.shared e.2] at he
    refine Below.send ⟨h.objects, fun n v hv => ?_, h.resolved⟩
      fun o ho => he (h.objects _ o ho)
    rcases mem_successors_withEdge.mp hv with hv | ⟨rfl, rfl⟩
    · exact h.successors n v hv
    · exact he

theorem Below.resolve (h : r.Below val T) (hf : f ∈ T c) : (r.resolve c f).Below val T where
  objects := h.objects
  successors := h.successors
  resolved d g hg := by
    rcases mem_resolved_resolve.mp hg with hg | ⟨rfl, rfl⟩
    · exact h.resolved d g hg
    · exact hf

/-- What the small changes keep as long as they make nothing up, looking at a node
keeps. -/
theorem visit_keeps {Q : Run → Prop} (hp : p.Admits val T) (hbelow : ∀ r, Q r → r.Below val T)
    (hsend : ∀ r known w, Q r → (∀ o ∈ known, o ∈ val w) → Q (r.send known w))
    (hedge : ∀ r e, Q r → val e.1 ⊆ val e.2 → Q (addEdge p r e))
    (hresolve : ∀ r c f, Q r → f ∈ T c → Q (r.resolve c f)) (h : Q r) : Q (visit p r v) := by
  have hk := (hbelow r h).objects v
  have hresolved : Q (resolveAll p r v (r.objects v)) :=
    List.foldlRecOn _ _ h fun s hs e he => hresolve s _ _ hs (hp.resolution hk he)
  have hedges : Q (addEdges p (resolveAll p r v (r.objects v)) v (r.objects v)) :=
    List.foldlRecOn _ _ hresolved fun s hs e he => hedge s e hs (hp.edge hk he)
  refine List.foldlRecOn _ _ hedges fun s hs w hw => hsend s _ w hs fun o ho => ?_
  exact (hbelow _ hedges).successors v w (Std.ExtTreeSet.mem_toList.mp hw) (hk o ho)

theorem Below.visit (hp : p.Admits val T) (h : r.Below val T) : (visit p r v).Below val T :=
  visit_keeps hp (fun _ h => h) (fun _ _ _ h hk => h.send hk) (fun _ _ h he => h.addEdge hp he)
    (fun _ _ _ h hf => h.resolve hf) h

theorem Below.popped {rest : List Node} (h : r.Below val T) : (r.popped rest).Below val T :=
  ⟨h.objects, h.successors, h.resolved⟩

/-- A run makes nothing up, by induction on the steps. -/
theorem Below.steps (hp : p.Admits val T) (h : r.Below val T) (k : Nat) :
    (steps p k r).Below val T := by
  induction k generalizing r with
  | zero => exact h
  | succ k ih =>
    cases hr : r.worklist with
    | nil => rwa [steps_nil hr]
    | cons v rest =>
      rw [steps_succ hr]
      exact ih (h.popped.visit hp)

/-! ## The worklist runs empty -/

/-- What a run can still do within some pairs of nodes and objects: the pairs it does
not have yet, and the nodes to look at. -/
def pending (pairs : Finset (Node × ValueId)) (r : Run) : Nat :=
  (pairs.filter fun e => e.2 ∉ r.objects e.1).card + r.worklist.length

variable {pairs : Finset (Node × ValueId)}

/-- A node that goes on the worklist has a pair that it did not have. -/
theorem pending_send (hpairs : ∀ n, ∀ o ∈ val n, (n, o) ∈ pairs) (hk : ∀ o ∈ known, o ∈ val w) :
    pending pairs (r.send known w) ≤ pending pairs r := by
  by_cases hgrows : ∃ o ∈ known, o ∉ r.objects w
  · obtain ⟨o, ho, hnot⟩ := hgrows
    have hlt : (pairs.filter fun e => e.2 ∉ (r.send known w).objects e.1).card <
        (pairs.filter fun e => e.2 ∉ r.objects e.1).card := by
      refine Finset.card_lt_card (Finset.ssubset_iff_subset_ne.mpr ⟨fun e he => ?_, fun heq => ?_⟩)
      · rw [Finset.mem_filter] at he ⊢
        exact ⟨he.1, fun h => he.2 (mem_objects_send.mpr (.inl h))⟩
      · have hmem : (w, o) ∈ pairs.filter fun e => e.2 ∉ r.objects e.1 :=
          Finset.mem_filter.mpr ⟨hpairs w o (hk o ho), hnot⟩
        rw [← heq, Finset.mem_filter] at hmem
        exact hmem.2 (mem_objects_send.mpr (.inr ⟨rfl, ho⟩))
    have hlen : (r.send known w).worklist.length ≤ r.worklist.length + 1 := by
      rw [send]
      split
      · omega
      · simp only
        split
        · omega
        · simp
    rw [pending, pending]
    omega
  · push Not at hgrows
    rw [send, if_pos (insertMany_toList_eq.mpr hgrows)]

theorem pending_addEdge (hpairs : ∀ n, ∀ o ∈ val n, (n, o) ∈ pairs) (hp : p.Admits val T)
    (h : r.Below val T) {e : Node × Node} (he : val e.1 ⊆ val e.2) :
    pending pairs (addEdge p r e) ≤ pending pairs r := by
  rcases addEdge_cases p r e with ⟨heq, -⟩ | heq
  · rw [heq]
  · rw [heq]
    rw [← hp.shared e.1, ← hp.shared e.2] at he
    exact pending_send (r := r.withEdge _ _) hpairs fun o ho => he (h.objects _ o ho)

/-- Looking at a node leaves no more to do than before. -/
theorem pending_visit (hpairs : ∀ n, ∀ o ∈ val n, (n, o) ∈ pairs) (hp : p.Admits val T)
    (h : r.Below val T) : pending pairs (visit p r v) ≤ pending pairs r := by
  have hkeeps : (visit p r v).Below val T ∧ pending pairs (visit p r v) ≤ pending pairs r := by
    refine visit_keeps (Q := fun s => s.Below val T ∧ pending pairs s ≤ pending pairs r) hp
      (fun _ hs => hs.1) (fun s known w hs hk => ?_) (fun s e hs he => ?_)
      (fun s c f hs hf => ⟨hs.1.resolve hf, hs.2⟩) ⟨h, Nat.le_refl _⟩
    · exact ⟨hs.1.send hk, Nat.le_trans (pending_send hpairs hk) hs.2⟩
    · exact ⟨hs.1.addEdge hp he, Nat.le_trans (pending_addEdge hpairs hp hs.1 he) hs.2⟩
  exact hkeeps.2

/-- With enough steps the worklist runs empty. -/
theorem worklist_steps (hpairs : ∀ n, ∀ o ∈ val n, (n, o) ∈ pairs) (hp : p.Admits val T)
    (h : r.Below val T) {k : Nat} (hk : pending pairs r ≤ k) : (steps p k r).worklist = [] := by
  induction k generalizing r with
  | zero =>
    rw [pending] at hk
    have hlen : r.worklist.length = 0 := by omega
    exact List.eq_nil_of_length_eq_zero hlen
  | succ k ih =>
    cases hr : r.worklist with
    | nil => rwa [steps_nil hr]
    | cons v rest =>
      rw [steps_succ hr]
      have hpop : pending pairs (r.popped rest) + 1 = pending pairs r := by
        rw [pending, pending, hr]
        rfl
      have hvisit : pending pairs (visit p (r.popped rest) v) ≤ pending pairs (r.popped rest) :=
        pending_visit hpairs hp h.popped
      exact ih (h.popped.visit hp) (by omega)

end Run

end PmemPaths.PointsTo
