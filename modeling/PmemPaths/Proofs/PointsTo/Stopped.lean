import Mathlib.Logic.Relation
import PmemPaths.Proofs.Ir.ControlFlow
import PmemPaths.Proofs.PointsTo.Calls

/-!
# Runs that are stopped

A run with a limit may stop with nodes left to look at.  What it knows then is true all
the same: it is a part of what it would have found in the end.

That does not depend on the order of the worklist, nor on the order of what is done for
a node.  A *move* is the least that a run can do: an edge, a resolution, or a part of a
set that is sent along an edge (`Run.Move`).  To look at a node is to make some moves
(`Run.moves_visit`), so the solutions of limited runs are among those that were stopped
between any two moves (`Solution.Stopped`).  These are all contained in the solution
without a limit, and all objects are where they are made from the start
(`Solution.stopped_within`).
-/

namespace PmemPaths.PointsTo

open PmemPaths.Ir

variable {m : Module} {p : Flow} {known known' : Objects} {v w : Node} {e : Node × Node}
  {c : IndirectCall} {f : FunctionId} {val : Node → Set ValueId} {T : ValueId → Set FunctionId}

/-! ## Moves -/

theorem Flow.resolutions_mono (hk : ∀ o ∈ known, o ∈ known') (h : (c, f) ∈ p.resolutions v known) :
    (c, f) ∈ p.resolutions v known' := by
  obtain ⟨hc, o, ho, hf⟩ := mem_resolutions.mp h
  exact mem_resolutions.mpr ⟨hc, o, hk o ho, hf⟩

theorem Flow.edges_mono (hk : ∀ o ∈ known, o ∈ known') (h : e ∈ p.edges v known) :
    e ∈ p.edges v known' := by
  refine mem_edges.mpr ?_
  rcases mem_edges.mp h with ⟨hd, o, ho, hu⟩ | ⟨hs, o, ho, hw⟩ | ⟨c, f, hcf, hxy⟩
  · exact .inl ⟨hd, o, hk o ho, hu⟩
  · exact .inr (.inl ⟨hs, o, hk o ho, hw⟩)
  · exact .inr (.inr ⟨c, f, resolutions_mono hk hcf, hxy⟩)

namespace Run

variable {r s : Run}

/-- A small change that the sets of a run call for. -/
inductive Move (p : Flow) (r : Run) : Run → Prop
  | resolve {v : Node} {c : IndirectCall} {f : FunctionId} :
      (c, f) ∈ p.resolutions v (r.objects v) → Move p r (r.resolve c.call f)
  | addEdge {v : Node} {e : Node × Node} :
      e ∈ p.edges v (r.objects v) → Move p r (addEdge p r e)
  /-- A part of the set of a node is sent along an edge that leaves it. -/
  | send {v w : Node} {known : Objects} : w ∈ r.successors v → (∀ o ∈ known, o ∈ r.objects v) →
      Move p r (r.send known w)
  /-- It is decided anew what is to be looked at. -/
  | worklist (nodes : List Node) : Move p r { r with worklist := nodes }

/-- Any number of moves, in any order. -/
abbrev Moves (p : Flow) : Run → Run → Prop := Relation.ReflTransGen (Move p)

/-- A move forgets nothing. -/
theorem Move.grows (h : Move p r s) : r.Grows s := by
  cases h with
  | resolve _ => exact (advances_resolve r _ _).toGrows
  | addEdge _ => exact (advances_addEdge p r _).toGrows
  | send _ _ => exact (advances_send r _ _).toGrows
  | worklist nodes => exact ⟨fun _ _ h => h, fun _ _ h => h, fun _ _ h => h⟩

/-- A move makes nothing up. -/
theorem Move.below (hp : p.Admits val T) (hr : r.Below val T) (h : Move p r s) :
    s.Below val T := by
  cases h with
  | resolve hcf => exact hr.resolve (hp.resolution (hr.objects _) hcf)
  | addEdge he => exact hr.addEdge hp (hp.edge (hr.objects _) he)
  | send hw hk => exact hr.send fun o ho => hr.successors _ _ hw (hr.objects _ o (hk o ho))
  | worklist nodes => exact ⟨hr.objects, hr.successors, hr.resolved⟩

theorem Moves.grows (h : Moves p r s) : r.Grows s := by
  induction h with
  | refl => exact .refl r
  | tail _ hmove ih => exact ih.trans hmove.grows

theorem Moves.below (hp : p.Admits val T) (hr : r.Below val T) (h : Moves p r s) :
    s.Below val T := by
  induction h with
  | refl => exact hr
  | tail _ hmove ih => exact hmove.below hp ih

/-! ## Looking at a node is made of moves -/

/-- As long as nothing of its set is lost, a set that a node had may be sent on. -/
theorem moves_sendAll (hk : ∀ o ∈ known, o ∈ r.objects v) : Moves p r (sendAll r v known) :=
  List.foldlRecOn _ _ .refl fun s (hs : Moves p r s) w hw =>
    hs.tail (.send (hs.grows.successors v w (Std.ExtTreeSet.mem_toList.mp hw))
      fun o ho => hs.grows.objects v o (hk o ho))

theorem moves_visit (p : Flow) (r : Run) (v : Node) : Moves p r (visit p r v) := by
  -- What the node had at first, it still has at every move.
  have hresolved : Moves p r (resolveAll p r v (r.objects v)) :=
    List.foldlRecOn _ _ .refl fun s hs e he =>
      hs.tail (.resolve (Flow.resolutions_mono (hs.grows.objects v) he))
  have hedges : Moves p r (addEdges p (resolveAll p r v (r.objects v)) v (r.objects v)) :=
    List.foldlRecOn _ _ hresolved fun s hs e he =>
      hs.tail (.addEdge (Flow.edges_mono (hs.grows.objects v) he))
  exact hedges.trans (moves_sendAll (hedges.grows.objects v))

theorem moves_steps (p : Flow) (r : Run) (k : Nat) : Moves p r (steps p k r) := by
  induction k generalizing r with
  | zero => exact .refl
  | succ k ih =>
    cases hr : r.worklist with
    | nil =>
      rw [steps_nil hr]
    | cons v rest =>
      rw [steps_succ hr]
      exact .head (.worklist rest) ((moves_visit p (r.popped rest) v).trans (ih _))

end Run

/-! ## Stopped solutions -/

namespace Solution

variable {share : Bool} {s : Solution} {o x call : ValueId}

/-- The solution that a run of the module had reached when it was stopped, at any moment
and whatever its order. -/
def Stopped (m : Module) (share : Bool) (s : Solution) : Prop :=
  ∃ r, Run.Moves (flowOf m (.ofModule m) (cyclesOf (.ofModule m) share).representative)
      (startOf (.ofModule m) (cyclesOf (.ofModule m) share).representative) r ∧
    s = { unlimited m share with run := r }

theorem stopped_ofModule (m : Module) (options : Options) :
    Stopped m options.shareCycles (ofModule m options) :=
  ⟨_, Run.moves_steps _ _ _, rfl⟩

/-- All objects everywhere are a solution. -/
theorem solvedBy_allocates (hm : m.Linked) :
    (ConstraintSet.ofModule m).SolvedBy m (fun _ => {o | Allocates m o}) fun _ => Set.univ := by
  refine ⟨fun c hc => ?_, fun c _ f fn _ _ _ => ⟨trivial, fun x y _ => subset_rfl⟩⟩
  cases c with
  | alloc x o => exact ((alloc_mem_constraints hm).mp hc).2
  | copy x y => exact subset_rfl
  | load x p => exact fun o _ => subset_rfl
  | store p y => exact fun o _ => subset_rfl

namespace Stopped

theorem mem_pointsTo (h : Stopped m share s) : o ∈ s.pointsTo x ↔
    x.index < m.valueCount ∧
      o ∈ s.run.objects ((cyclesOf (.ofModule m) share).representative x.index) := by
  obtain ⟨r, -, rfl⟩ := h
  rw [pointsTo]
  split
  · next hx => exact (and_iff_right hx).symm
  · next hx => exact iff_of_false Std.ExtTreeSet.not_mem_empty fun h => hx h.1

/-- What was found lies within every solution. -/
theorem below (hm : m.Linked) (hk : (ConstraintSet.ofModule m).SolvedBy m val T)
    (h : Stopped m share s) : s.run.Below val T := by
  obtain ⟨r, hmoves, rfl⟩ := h
  have hshared := hk.representative share
  exact hmoves.below (hk.admits hm hshared) (below_startOf hk hshared)

theorem mem_of_solvedBy (hm : m.Linked) (hk : (ConstraintSet.ofModule m).SolvedBy m val T)
    (h : Stopped m share s) (ho : o ∈ s.pointsTo x) : o ∈ val x.index := by
  rw [← hk.representative share]
  exact (h.below hm hk).objects _ o (h.mem_pointsTo.mp ho).2

/-- Nothing is pointed to that makes no object. -/
theorem allocates (hm : m.Linked) (h : Stopped m share s) (ho : o ∈ s.pointsTo x) :
    Allocates m o :=
  h.mem_of_solvedBy hm (solvedBy_allocates hm) ho

theorem mem_pointsTo_self (hm : m.Linked) (h : Stopped m share s) (ho : Allocates m o) :
    o ∈ s.pointsTo o := by
  refine h.mem_pointsTo.mpr ⟨ho.index_lt hm, ?_⟩
  obtain ⟨r, hmoves, rfl⟩ := h
  refine hmoves.grows.objects _ o (mem_objects_startOf.mpr ⟨o, ?_, rfl⟩)
  exact (alloc_mem_constraints hm).mpr ⟨rfl, ho⟩

end Stopped

/-- Whenever a run is stopped, after any number of nodes or in the middle of one, what its
values point to and its calls call is part of what is found without a limit, whether
cycles of copies share their sets or not.  All values that make an object point to it. -/
theorem stopped_within {l : Listing} (hl : l.build = .ok m) (share share' : Bool) :
    (∀ k, Stopped m share (ofModule m { shareCycles := share, limit := k })) ∧
    ∀ s, Stopped m share s →
      (∀ v, ∀ o ∈ s.pointsTo v, o ∈ (unlimited m share').pointsTo v) ∧
      (∀ c, ∀ f ∈ s.indirectTargets c, f ∈ (unlimited m share').indirectTargets c) ∧
      ∀ v, Allocates m v → v ∈ s.pointsTo v := by
  have hm := (Listing.build_eq_ok hl).1.linked
  have hsolved := @solvedBy_unlimited m share' hm
  refine ⟨fun k => stopped_ofModule m ⟨share, k⟩, fun s hs => ⟨fun v o ho => ?_, fun c f hf => ?_,
    fun v hv => hs.mem_pointsTo_self hm hv⟩⟩
  · exact (mem_pointsTo_iff (hs.mem_pointsTo.mp ho).1).mpr (hs.mem_of_solvedBy hm hsolved ho)
  · exact (hs.below hm hsolved).resolved c f (mem_indirectTargets.mp hf)

/-- A call through a pointer, where the run is stopped after two nodes. -/
theorem stopped_within_identityCall : ∃ m, identityCall.build = .ok m ∧ ∀ share share',
    let s := ofModule m { shareCycles := share, limit := 2 }
    (∀ v, ∀ o ∈ s.pointsTo v, o ∈ (unlimited m share').pointsTo v) ∧
      (∀ c, ∀ f ∈ s.indirectTargets c, f ∈ (unlimited m share').indirectTargets c) ∧
      ⟨0⟩ ∈ s.pointsTo ⟨0⟩ ∧ ⟨1⟩ ∈ s.pointsTo ⟨1⟩ ∧ ⟨5⟩ ∈ s.pointsTo ⟨5⟩ := by
  obtain ⟨m, hl, hglobal, haddress, halloca⟩ := Listing.exists_build (l := identityCall)
    (p := fun m => m.isGlobal ⟨0⟩ ∧ (m.function? ⟨0⟩).map (·.address) = some ⟨1⟩ ∧
      m.operation? ⟨5⟩ = some .alloca)
    (by decide +kernel)
  refine ⟨m, hl, fun share share' => ?_⟩
  obtain ⟨hstopped, hwithin⟩ := stopped_within hl share share'
  obtain ⟨hpoints, htargets, hself⟩ := hwithin _ (hstopped 2)
  obtain ⟨fn, hf, hfn⟩ := Option.map_eq_some_iff.mp haddress
  exact ⟨hpoints, htargets, hself _ (.global hglobal), hfn ▸ hself _ (.address hf),
    hself _ (.alloca halloca)⟩

end Solution

end PmemPaths.PointsTo
