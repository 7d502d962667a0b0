import Mathlib.Algebra.BigOperators.Group.Finset.Basic
import Mathlib.Algebra.GroupWithZero.Nat
import Mathlib.Algebra.Order.BigOperators.Group.Finset
import Mathlib.Logic.Relation
import Mathlib.Order.Bounds.Basic

/-!
# Walks that collect the most

A walk goes along edges.  It collects the weight of each node that it comes by, once.

What a walk that starts in a strongly connected component collects at most is the weight
of the whole component and the most that can be collected from where it is left
(`collectsMost_component`).  A walk cannot collect more, since once it has left the
component it does not come back (`Walk.leaves`).  And a walk can collect that much, since
it may first go through all of the component, in any order, and then take the best way out
(`Walk.exists_cover`).
-/

namespace PmemPaths.Graph

variable {α : Type} {succ : α → List α} {weight : α → Nat} {walk c known : List α}
  {u v w z : α} {best : α → Nat} {most : Nat}

/-- A walk along edges, which starts at a node. -/
inductive Walk (succ : α → List α) : α → List α → Prop
  | stop (v : α) : Walk succ v [v]
  | step {v w : α} {walk : List α} : w ∈ succ v → Walk succ w walk → Walk succ v (v :: walk)

namespace Walk

theorem start_mem (h : Walk succ v walk) : v ∈ walk := by
  cases h with
  | stop => exact List.mem_cons_self
  | step => exact List.mem_cons_self

/-- What edges do not lead out of is not left. -/
theorem subset (hclosed : ∀ u ∈ c, ∀ w ∈ succ u, w ∈ c) (h : Walk succ v walk) (hv : v ∈ c) :
    walk ⊆ c := by
  induction h with
  | stop => simpa using hv
  | step hw _ ih => exact List.cons_subset.mpr ⟨hv, ih (hclosed _ hv _ hw)⟩

/-- A walk can start where its start is reached from. -/
theorem exists_prepend (hreach : Relation.ReflTransGen (fun u v => v ∈ succ u) v z)
    (h : Walk succ z walk) : ∃ longer, Walk succ v longer ∧ walk ⊆ longer := by
  induction hreach using Relation.ReflTransGen.head_induction_on with
  | refl => exact ⟨walk, h, List.Subset.refl _⟩
  | head hw _ ih =>
    obtain ⟨longer, hlonger, hsubset⟩ := ih
    exact ⟨_, .step hw hlonger, List.subset_cons_of_subset _ hsubset⟩

/-- A walk that starts in a strongly connected component can first go through any of its
nodes. -/
theorem exists_cover
    (hconnected : ∀ u ∈ c, ∀ v ∈ c, Relation.ReflTransGen (fun u v => v ∈ succ u) u v)
    (h : Walk succ z walk) (hz : z ∈ c) {visit : List α} (hvisit : visit ⊆ c) (hv : v ∈ c) :
    ∃ longer, Walk succ v longer ∧ walk ⊆ longer ∧ visit ⊆ longer := by
  induction visit generalizing v with
  | nil =>
    obtain ⟨longer, hlonger, hsubset⟩ := exists_prepend (hconnected v hv z hz) h
    exact ⟨longer, hlonger, hsubset, List.nil_subset _⟩
  | cons t visit ih =>
    rw [List.cons_subset] at hvisit
    obtain ⟨rest, hrest, hwalk, hvisited⟩ := ih hvisit.2 hvisit.1
    obtain ⟨longer, hlonger, hsubset⟩ := exists_prepend (hconnected v hv t hvisit.1) hrest
    exact ⟨longer, hlonger, List.Subset.trans hwalk hsubset,
      List.cons_subset.mpr ⟨hsubset hrest.start_mem, List.Subset.trans hvisited hsubset⟩⟩

/-- A walk stays in a component, or leaves it for a walk from outside. -/
theorem leaves (hleave : ∀ u ∈ c, ∀ w ∈ succ u, w ∈ c ∨ w ∈ known) (h : Walk succ v walk)
    (hv : v ∈ c) : walk ⊆ c ∨
      ∃ u ∈ c, ∃ w ∈ succ u, w ∈ known ∧ ∃ rest, Walk succ w rest ∧ walk ⊆ c ++ rest := by
  induction h with
  | stop => exact .inl (by simpa using hv)
  | @step v w walk hw hwalk ih =>
    obtain hin | hout := hleave v hv w hw
    · obtain hsubset | ⟨u, hu, x, hx, hknown, rest, hrest, hsubset⟩ := ih hin
      · exact .inl (List.cons_subset.mpr ⟨hv, hsubset⟩)
      · exact .inr ⟨u, hu, x, hx, hknown, rest, hrest,
          List.cons_subset.mpr ⟨List.mem_append_left _ hv, hsubset⟩⟩
    · exact .inr ⟨v, hv, w, hw, hout, walk, hwalk,
        List.cons_subset.mpr ⟨List.mem_append_left _ hv, List.subset_append_right _ _⟩⟩

end Walk

variable [DecidableEq α]

/-! ## What a walk collects -/

/-- The weight of the nodes on a walk, each counted once. -/
def collected (weight : α → Nat) (walk : List α) : Nat := ∑ v ∈ walk.toFinset, weight v

/-- The most that a walk from a node collects. -/
def CollectsMost (succ : α → List α) (weight : α → Nat) (v : α) (most : Nat) : Prop :=
  IsGreatest {n | ∃ walk, Walk succ v walk ∧ collected weight walk = n} most

theorem collected_mono (h : walk ⊆ c) : collected weight walk ≤ collected weight c := by
  refine Finset.sum_le_sum_of_subset ?_
  intro v hv
  rw [List.mem_toFinset] at hv ⊢
  exact h hv

theorem collected_append_le :
    collected weight (c ++ walk) ≤ collected weight c + collected weight walk := by
  rw [collected, List.toFinset_append, collected, collected, ← Finset.sum_union_inter]
  exact Nat.le_add_right _ _

theorem collected_append (h : ∀ v ∈ c, v ∉ walk) :
    collected weight (c ++ walk) = collected weight c + collected weight walk := by
  rw [collected, List.toFinset_append, Finset.sum_union]
  · rfl
  · rw [List.disjoint_toFinset_iff_disjoint]
    exact h

theorem collected_of_nodup (h : c.Nodup) : collected weight c = (c.map weight).sum :=
  List.sum_toFinset weight h

/-- What walks collect that start in a component, when it is known what they collect that
start where it is left. -/
theorem collectsMost_component
    (hconnected : ∀ u ∈ c, ∀ v ∈ c, Relation.ReflTransGen (fun u v => v ∈ succ u) u v)
    (hleave : ∀ u ∈ c, ∀ w ∈ succ u, w ∈ c ∨ w ∈ known)
    (hclosed : ∀ u ∈ known, ∀ w ∈ succ u, w ∈ known) (hdisjoint : ∀ v ∈ c, v ∉ known)
    (hbest : ∀ w ∈ known, CollectsMost succ weight w (best w))
    (hle : ∀ u ∈ c, ∀ w ∈ succ u, w ∈ known → best w ≤ most)
    (hattained : most = 0 ∨ ∃ u ∈ c, ∃ w ∈ succ u, w ∈ known ∧ best w = most) (hv : v ∈ c) :
    CollectsMost succ weight v (collected weight c + most) := by
  have hupper : ∀ walk, Walk succ v walk → collected weight walk ≤ collected weight c + most := by
    intro walk hwalk
    obtain hstays | ⟨u, hu, w, hw, hknown, rest, hrest, hsubset⟩ := hwalk.leaves hleave hv
    · exact Nat.le_trans (collected_mono hstays) (Nat.le_add_right _ _)
    · calc
        collected weight walk ≤ collected weight (c ++ rest) := collected_mono hsubset
        _ ≤ collected weight c + collected weight rest := collected_append_le
        _ ≤ collected weight c + most := by
          have hrest := (hbest w hknown).2 ⟨rest, hrest, rfl⟩
          have hbound := hle u hu w hw hknown
          omega
  -- One walk comes by all of the component, and then by all that the best way out collects.
  have hlower : ∃ walk, Walk succ v walk ∧ collected weight c + most ≤ collected weight walk := by
    obtain rfl | ⟨u, hu, w, hw, hknown, rfl⟩ := hattained
    · obtain ⟨walk, hwalk, -, hcover⟩ :=
        Walk.exists_cover hconnected (.stop v) hv (List.Subset.refl c) hv
      exact ⟨walk, hwalk, collected_mono hcover⟩
    · obtain ⟨rest, hrest, hcollected⟩ := (hbest w hknown).1
      obtain ⟨walk, hwalk, hsubset, hcover⟩ :=
        Walk.exists_cover hconnected (.step hw hrest) hu (List.Subset.refl c) hv
      refine ⟨walk, hwalk, ?_⟩
      rw [← hcollected, ← collected_append]
      · exact collected_mono (List.append_subset.mpr ⟨hcover, (List.cons_subset.mp hsubset).2⟩)
      · intro x hx hmem
        exact hdisjoint x hx (hrest.subset hclosed hknown hmem)
  refine ⟨?_, ?_⟩
  · obtain ⟨walk, hwalk, hcollected⟩ := hlower
    exact ⟨walk, hwalk, Nat.le_antisymm (hupper walk hwalk) hcollected⟩
  · rintro n ⟨walk, hwalk, rfl⟩
    exact hupper walk hwalk

end PmemPaths.Graph
