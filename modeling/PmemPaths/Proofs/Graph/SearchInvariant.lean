import Mathlib.Data.List.Pairwise
import Mathlib.Logic.Relation
import PmemPaths.Graph.Components

/-!
# What a search keeps

The invariant of the depth-first search for components, and that every step of
the search keeps it.

It has three parts.  *Filed* says where the nodes are: every node that was met is
on the stack or in exactly one component, and the stack is sorted by number.
*Settled* speaks of the components found: each is strongly connected, and no edge
leaves one for a later component or for the stack.  *Tracked* relates the stack
and the frames: from a node of the stack all later ones can be reached, every
node reaches a frame at or below it, and an edge between nodes of the stack that
no frame has still to look at is known to a low number.

The last condition is what makes the low numbers mean something.  It asks for
*some* frame at or inside the given one, not for the frame the edge was seen
from, so it survives when a frame hands its low number to the next one.

The steps are put together from four moves: a node is entered (`Inv.enter`), a
frame learns something (`Inv.learn`), the innermost frame is given up
(`Inv.leave`), and the nodes above it become a component (`Inv.close`).
-/

namespace PmemPaths.Graph

variable {α : Type} [DecidableEq α] [Hashable α]

/-- One node reaches another along the edges. -/
abbrev Reaches (succ : α → List α) : α → α → Prop :=
  Relation.ReflTransGen fun u v => v ∈ succ u

/-! ## Splitting the stack -/

omit [Hashable α] in
/-- Splitting a list at a member gives what is up to it, and what is behind it. -/
theorem splitThrough_of_mem {x : α} {l : List α} (h : x ∈ l) :
    ∃ above below, l = above ++ x :: below ∧ splitThrough x l = (above ++ [x], below) := by
  induction l with
  | nil => simp at h
  | cons y ys ih =>
    by_cases hy : y = x
    · subst hy
      exact ⟨[], ys, rfl, by simp [splitThrough]⟩
    · rcases List.mem_cons.mp h with rfl | hx
      · exact absurd rfl hy
      · obtain ⟨above, below, hl, hs⟩ := ih hx
        exact ⟨y :: above, below, by rw [hl]; rfl, by simp [splitThrough, hy, hs]⟩

theorem getElem?_foldl_insert_const {β : Type} (l : List α) (b : β) (m : Std.HashMap α β) (v : α) :
    (l.foldl (fun m w => m.insert w b) m)[v]? = if v ∈ l then some b else m[v]? := by
  induction l generalizing m with
  | nil => simp
  | cons w ws ih =>
    rw [List.foldl_cons, ih, Std.HashMap.getElem?_insert]
    by_cases hv : v = w
    · subst hv; simp
    · simp [hv, Ne.symm hv]

namespace Search

/-! ## The invariant -/

/-- The number of a node that was met. -/
def num (s : Search α) (v : α) : Nat := s.index.getD v 0

/-- The node is in a component that was found. -/
def Closed (s : Search α) (v : α) : Prop := ∃ c ∈ s.components, v ∈ c

/-- A frame has still to look at an edge. -/
def Pending (frames : List (Frame α)) (u v : α) : Prop :=
  ∃ f ∈ frames, f.node = u ∧ v ∈ f.rest

/-- Every node that was met is in one place. -/
structure Filed (s : Search α) : Prop where
  /-- It was met if it is on the stack or in a component. -/
  met_iff : ∀ v, v ∈ s.index ↔ v ∈ s.stack ∨ s.Closed v
  /-- It is in no two of these places. -/
  nodup : (s.stack ++ s.components.toList.flatten).Nodup
  num_lt : ∀ v ∈ s.index, s.num v < s.index.size
  /-- The stack has the newest node first. -/
  newest_first : s.stack.Pairwise fun u v => s.num v < s.num u
  /-- The table of positions tells the positions. -/
  componentOf_iff : ∀ v i, s.componentOf[v]? = some i ↔
    ∃ c : List α, s.components[i]? = some c ∧ v ∈ c

/-- The components that were found are final. -/
structure Settled (succ : α → List α) (s : Search α) : Prop where
  /-- Edges stay in the component or go to an earlier one. -/
  sinks_first : ∀ (i : Nat) (c : List α), s.components[i]? = some c → ∀ u ∈ c, ∀ v ∈ succ u,
    ∃ j ≤ i, ∃ d : List α, s.components[j]? = some d ∧ v ∈ d
  connected : ∀ c ∈ s.components, ∀ u ∈ c, ∀ v ∈ c, Reaches succ u v
  inhabited : ∀ c ∈ s.components, c ≠ []

/-- What a frame says is so. -/
structure Frame.Ok (succ : α → List α) (s : Search α) (f : Frame α) : Prop where
  on_stack : f.node ∈ s.stack
  num_node : s.num f.node = f.index
  /-- It has still to look at successors of its node. -/
  rest_sub : ∀ v ∈ f.rest, v ∈ succ f.node
  /-- Its low number is not above its own. -/
  low_le : f.low ≤ f.index
  /-- Its low number is that of a node of the stack it reaches. -/
  low_reached : ∃ v ∈ s.stack, s.num v = f.low ∧ Reaches succ f.node v

/-- The frames account for the stack. -/
structure Tracked (succ : α → List α) (s : Search α) (frames : List (Frame α)) : Prop where
  frame : ∀ f ∈ frames, Frame.Ok succ s f
  /-- Inner frames have greater numbers. -/
  inner_first : frames.Pairwise fun f g => g.index < f.index
  /-- A node of the stack reaches all newer ones. -/
  upward : ∀ u ∈ s.stack, ∀ v ∈ s.stack, s.num u ≤ s.num v → Reaches succ u v
  /-- A node of the stack reaches a frame that is not newer. -/
  downward : ∀ u ∈ s.stack, ∃ f ∈ frames, f.index ≤ s.num u ∧ Reaches succ u f.node
  /-- An edge leads to a node that was met, unless it is pending. -/
  followed : ∀ u ∈ s.index, ∀ v ∈ succ u, Pending frames u v ∨ v ∈ s.index
  /-- An edge within the stack is known to a low number, unless it is pending. -/
  low_bound : ∀ u ∈ s.stack, ∀ v ∈ s.stack, v ∈ succ u → Pending frames u v ∨
    ∀ f ∈ frames, f.index ≤ s.num u → ∃ g ∈ frames, f.index ≤ g.index ∧ g.low ≤ s.num v

/-- The invariant of the search. -/
structure Inv (succ : α → List α) (s : Search α) (frames : List (Frame α)) : Prop
    extends Filed s, Settled succ s, Tracked succ s frames

variable {succ : α → List α} {s : Search α} {frames outer : List (Frame α)} {f g : Frame α}

theorem Inv.start : Inv succ ({} : Search α) [] where
  met_iff v := by simp [Closed]
  nodup := by simp
  num_lt v hv := by simp at hv
  newest_first := .nil
  componentOf_iff v i := by simp
  sinks_first i c h := by simp at h
  connected c h := by simp at h
  inhabited c h := by simp at h
  frame f h := by simp at h
  inner_first := .nil
  upward u h := by simp at h
  downward u h := by simp at h
  followed u h := by simp at h
  low_bound u h := by simp at h

/-! ## Consequences -/

theorem Filed.met_of_stack (h : Filed s) {v : α} (hv : v ∈ s.stack) : v ∈ s.index :=
  (h.met_iff v).mpr (.inl hv)

theorem Filed.not_closed_of_stack (h : Filed s) {v : α} (hv : v ∈ s.stack) : ¬ s.Closed v := by
  rintro ⟨c, hc, hvc⟩
  have hd := (List.nodup_append.mp h.nodup).2.2 v hv v
  exact hd (List.mem_flatten.mpr ⟨c, by simpa using hc, hvc⟩) rfl

theorem Filed.contains_componentOf (h : Filed s) (v : α) :
    s.componentOf.contains v = true ↔ s.Closed v := by
  rw [Std.HashMap.contains_eq_isSome_getElem?, Option.isSome_iff_exists]
  constructor
  · rintro ⟨i, hi⟩
    obtain ⟨c, hc, hv⟩ := (h.componentOf_iff v i).mp hi
    exact ⟨c, Array.mem_of_getElem? hc, hv⟩
  · rintro ⟨c, hc, hv⟩
    obtain ⟨i, hi⟩ := Array.getElem?_of_mem hc
    exact ⟨i, (h.componentOf_iff v i).mpr ⟨c, hi, hv⟩⟩

theorem num_of_getElem? {v : α} {i : Nat} (h : s.index[v]? = some i) : s.num v = i := by
  simp [num, Std.HashMap.getD_eq_getD_getElem?, h]

theorem Tracked.index_le_head (h : Tracked succ s (f :: outer)) {g : Frame α}
    (hg : g ∈ f :: outer) : g.index ≤ f.index := by
  rcases List.mem_cons.mp hg with rfl | hg
  · exact Nat.le_refl _
  · exact Nat.le_of_lt (List.rel_of_pairwise_cons h.inner_first hg)

theorem Tracked.stack_eq_nil (h : Tracked succ s []) : s.stack = [] := by
  rcases hs : s.stack with _ | ⟨v, vs⟩
  · rfl
  · obtain ⟨f, hf, -⟩ := h.downward v (by simp [hs])
    simp at hf

/-- Every node of the stack reaches the innermost frame. -/
theorem Tracked.reaches_head (h : Tracked succ s (f :: outer)) {u : α} (hu : u ∈ s.stack) :
    Reaches succ u f.node := by
  obtain ⟨g, hg, -, hr⟩ := h.downward u hu
  have hf := h.frame f (by simp)
  refine hr.trans (h.upward _ (h.frame g hg).on_stack _ hf.on_stack ?_)
  rw [(h.frame g hg).num_node, hf.num_node]
  exact h.index_le_head hg

/-! ## Entering a node -/

theorem num_enter (succ : α → List α) (s : Search α) (v w : α) :
    (s.enter succ v).1.num w = if v = w then s.index.size else s.num w := by
  simp [enter, num, Std.HashMap.getD_insert]

theorem mem_index_enter {succ : α → List α} {s : Search α} {v w : α} :
    w ∈ (s.enter succ v).1.index ↔ v = w ∨ w ∈ s.index := by
  simp [enter]

theorem mem_stack_enter {succ : α → List α} {s : Search α} {v w : α} :
    w ∈ (s.enter succ v).1.stack ↔ w = v ∨ w ∈ s.stack := by
  simp [enter]

theorem num_enter_of_met {v w : α} (hv : v ∉ s.index) (hw : w ∈ s.index) :
    (s.enter succ v).1.num w = s.num w := by
  rw [num_enter, if_neg]
  rintro rfl
  exact hv hw

theorem Filed.enter (h : Filed s) {v : α} (hv : v ∉ s.index) : Filed (s.enter succ v).1 where
  met_iff w := by
    rw [mem_index_enter, mem_stack_enter, h.met_iff w]
    have : (s.enter succ v).1.Closed w ↔ s.Closed w := Iff.rfl
    rw [this, eq_comm, or_assoc]
  nodup := by
    have hn : v ∉ s.stack ++ s.components.toList.flatten := by
      intro hm
      refine hv ((h.met_iff v).mpr ?_)
      rcases List.mem_append.mp hm with hs | hc
      · exact .inl hs
      · obtain ⟨c, hc, hvc⟩ := List.mem_flatten.mp hc
        exact .inr ⟨c, by simpa using hc, hvc⟩
    exact List.nodup_cons.mpr ⟨hn, h.nodup⟩
  num_lt w hw := by
    have hsize : (s.enter succ v).1.index.size = s.index.size + 1 := by
      simp [Search.enter, Std.HashMap.size_insert, hv]
    rw [hsize]
    rcases mem_index_enter.mp hw with rfl | hw
    · rw [num_enter, if_pos rfl]
      exact Nat.lt_succ_self _
    · rw [num_enter_of_met hv hw]
      exact Nat.lt_succ_of_lt (h.num_lt w hw)
  newest_first := by
    refine List.pairwise_cons.mpr ⟨fun w hw => ?_, ?_⟩
    · have hm := h.met_of_stack hw
      rw [num_enter_of_met hv hm, num_enter, if_pos rfl]
      exact h.num_lt w hm
    · refine h.newest_first.imp_of_mem fun {a b} ha hb hlt => ?_
      rwa [num_enter_of_met hv (h.met_of_stack ha), num_enter_of_met hv (h.met_of_stack hb)]
  componentOf_iff := h.componentOf_iff

/-- A node that all of the stack reaches may be entered. -/
theorem Inv.enter (h : Inv succ s frames) {v : α} (hv : v ∉ s.index)
    (hreach : ∀ u ∈ s.stack, Reaches succ u v) :
    Inv succ (s.enter succ v).1 ((s.enter succ v).2 :: frames) where
  toFiled := h.toFiled.enter hv
  toSettled := ⟨h.sinks_first, h.connected, h.inhabited⟩
  frame f hf := by
    rcases List.mem_cons.mp hf with rfl | hf
    · refine ⟨by simp [Search.enter], ?_, fun w hw => hw, Nat.le_refl _, v, ?_, ?_, .refl⟩
      · exact (num_enter succ s v v).trans (if_pos rfl)
      · simp [Search.enter]
      · exact (num_enter succ s v v).trans (if_pos rfl)
    · have ok := h.frame f hf
      obtain ⟨w, hw, hn, hr⟩ := ok.low_reached
      refine ⟨mem_stack_enter.mpr (.inr ok.on_stack), ?_, ok.rest_sub, ok.low_le, w,
        mem_stack_enter.mpr (.inr hw), ?_, hr⟩
      · rw [num_enter_of_met hv (h.met_of_stack ok.on_stack), ok.num_node]
      · rw [num_enter_of_met hv (h.met_of_stack hw), hn]
  inner_first := by
    refine List.pairwise_cons.mpr ⟨fun f hf => ?_, h.inner_first⟩
    have ok := h.frame f hf
    have hlt := h.num_lt f.node (h.met_of_stack ok.on_stack)
    rwa [ok.num_node] at hlt
  upward u hu w hw hle := by
    rcases mem_stack_enter.mp hw with rfl | hw
    · rcases mem_stack_enter.mp hu with rfl | hu
      · exact .refl
      · exact hreach u hu
    · have hmw := h.met_of_stack hw
      rcases mem_stack_enter.mp hu with rfl | hu
      · rw [num_enter, if_pos rfl, num_enter_of_met hv hmw] at hle
        exact absurd (h.num_lt w hmw) (Nat.not_lt.mpr hle)
      · rw [num_enter_of_met hv (h.met_of_stack hu), num_enter_of_met hv hmw] at hle
        exact h.upward u hu w hw hle
  downward u hu := by
    rcases mem_stack_enter.mp hu with rfl | hu
    · refine ⟨_, List.mem_cons_self, ?_, .refl⟩
      rw [num_enter, if_pos rfl]
      exact Nat.le_refl _
    · obtain ⟨f, hf, hle, hr⟩ := h.downward u hu
      refine ⟨f, List.mem_cons_of_mem _ hf, ?_, hr⟩
      rwa [num_enter_of_met hv (h.met_of_stack hu)]
  followed u hu w hw := by
    rcases mem_index_enter.mp hu with rfl | hu
    · exact .inl ⟨_, List.mem_cons_self, rfl, hw⟩
    · rcases h.followed u hu w hw with ⟨f, hf, hp⟩ | hm
      · exact .inl ⟨f, List.mem_cons_of_mem _ hf, hp⟩
      · exact .inr (mem_index_enter.mpr (.inr hm))
  low_bound u hu w hw hs := by
    rcases mem_stack_enter.mp hu with rfl | hu
    · exact .inl ⟨_, List.mem_cons_self, rfl, hs⟩
    have hmu := h.met_of_stack hu
    -- An edge to a node that was not met before is pending.
    rcases h.followed u hmu w hs with ⟨f, hf, hp⟩ | hmw
    · exact .inl ⟨f, List.mem_cons_of_mem _ hf, hp⟩
    have hw : w ∈ s.stack := by
      rcases mem_stack_enter.mp hw with rfl | hw
      · exact absurd hmw hv
      · exact hw
    rcases h.low_bound u hu w hw hs with ⟨f, hf, hp⟩ | hb
    · exact .inl ⟨f, List.mem_cons_of_mem _ hf, hp⟩
    refine .inr fun f hf hle => ?_
    rw [num_enter_of_met hv hmu] at hle
    rw [num_enter_of_met hv hmw]
    rcases List.mem_cons.mp hf with rfl | hf
    · exact absurd (h.num_lt u hmu) (Nat.not_lt.mpr hle)
    · obtain ⟨g, hg, hfg, hlow⟩ := hb f hf hle
      exact ⟨g, List.mem_cons_of_mem _ hg, hfg, hlow⟩

/-! ## Learning from an edge -/

/-- What a frame may become: it may have looked at more edges to nodes that were
met, and its low number may have sunk to the number of a node it reaches. -/
structure Frame.Learns (succ : α → List α) (s : Search α) (f g : Frame α) : Prop where
  node_eq : g.node = f.node
  index_eq : g.index = f.index
  low_le : g.low ≤ f.low
  /-- Its low number is that of a node it reaches. -/
  low_reached : ∃ v ∈ s.stack, s.num v = g.low ∧ Reaches succ f.node v
  rest_sub : ∀ v ∈ g.rest, v ∈ f.rest
  /-- What it has looked at was met, and is heard of in its low number. -/
  looked_at : ∀ v ∈ f.rest, v ∈ g.rest ∨ v ∈ s.index ∧ (v ∈ s.stack → g.low ≤ s.num v)

omit [DecidableEq α] [Hashable α] in
theorem mem_replaced {inner : List (Frame α)} {h : Frame α} (hh : h ∈ inner ++ f :: outer) :
    h = f ∨ h ∈ inner ++ g :: outer := by
  simp only [List.mem_append, List.mem_cons] at hh ⊢
  rcases hh with hh | rfl | hh
  · exact .inr (.inl hh)
  · exact .inl rfl
  · exact .inr (.inr (.inr hh))

/-- A pending edge stays pending, unless the frame has looked at it. -/
theorem Frame.Learns.pending {inner : List (Frame α)} {u v : α} (h : Frame.Learns succ s f g)
    (hp : Pending (inner ++ f :: outer) u v) :
    Pending (inner ++ g :: outer) u v ∨
      u = f.node ∧ v ∈ s.index ∧ (v ∈ s.stack → g.low ≤ s.num v) := by
  obtain ⟨k, hk, rfl, hv⟩ := hp
  rcases mem_replaced (g := g) hk with rfl | hk
  · rcases h.looked_at v hv with hv | hm
    · exact .inl ⟨g, by simp, h.node_eq, hv⟩
    · exact .inr ⟨rfl, hm⟩
  · exact .inl ⟨k, hk, rfl, hv⟩

/-- Any frame may learn, not only the innermost one. -/
theorem Inv.learn (inner : List (Frame α)) (h : Inv succ s (inner ++ f :: outer))
    (hl : Frame.Learns succ s f g) : Inv succ s (inner ++ g :: outer) where
  toFiled := h.toFiled
  toSettled := h.toSettled
  frame k hk := by
    rcases mem_replaced (g := f) hk with rfl | hk
    · have ok := h.frame f (by simp)
      refine ⟨hl.node_eq ▸ ok.on_stack, ?_, fun v hv => ?_, ?_, ?_⟩
      · rw [hl.node_eq, hl.index_eq, ok.num_node]
      · rw [hl.node_eq]
        exact ok.rest_sub v (hl.rest_sub v hv)
      · exact hl.index_eq ▸ Nat.le_trans hl.low_le ok.low_le
      · rw [hl.node_eq]
        exact hl.low_reached
    · exact h.frame k hk
  inner_first := by
    have hp := h.inner_first
    simp only [List.pairwise_append, List.pairwise_cons, List.mem_cons, forall_eq_or_imp] at hp ⊢
    rw [hl.index_eq]
    exact hp
  upward := h.upward
  downward u hu := by
    obtain ⟨k, hk, hle, hr⟩ := h.downward u hu
    rcases mem_replaced (g := g) hk with rfl | hk
    · exact ⟨g, by simp, hl.index_eq ▸ hle, hl.node_eq ▸ hr⟩
    · exact ⟨k, hk, hle, hr⟩
  followed u hu v hv := by
    rcases h.followed u hu v hv with hp | hm
    · rcases hl.pending hp with hp | ⟨-, hm, -⟩
      · exact .inl hp
      · exact .inr hm
    · exact .inr hm
  low_bound u hu v hv hs := by
    have hg : g ∈ inner ++ g :: outer := by simp
    rcases h.low_bound u hu v hv hs with hp | hb
    · rcases hl.pending hp with hp | ⟨rfl, -, hlow⟩
      · exact .inl hp
      · refine .inr fun k hk hle => ⟨g, hg, ?_, hlow hv⟩
        rwa [hl.index_eq, ← (h.frame f (by simp)).num_node]
    · refine .inr fun k hk hle => ?_
      obtain ⟨k', hk', hi⟩ : ∃ k' ∈ inner ++ f :: outer, k'.index = k.index := by
        rcases mem_replaced (g := f) hk with rfl | hk
        · exact ⟨f, by simp, hl.index_eq.symm⟩
        · exact ⟨k, hk, rfl⟩
      obtain ⟨m, hm, him, hlow⟩ := hb k' hk' (hi ▸ hle)
      rw [hi] at him
      rcases mem_replaced (g := g) hm with rfl | hm
      · exact ⟨g, hg, hl.index_eq ▸ him, Nat.le_trans hl.low_le hlow⟩
      · exact ⟨m, hm, him, hlow⟩

/-! ## Leaving a node -/

omit [DecidableEq α] [Hashable α] in
theorem pending_tail {u v : α} (hf : f.rest = []) (hp : Pending (f :: outer) u v) :
    Pending outer u v := by
  obtain ⟨k, hk, hu, hv⟩ := hp
  rcases List.mem_cons.mp hk with rfl | hk
  · simp [hf] at hv
  · exact ⟨k, hk, hu, hv⟩

/-- The innermost frame may be given up when it has looked at everything, reaches
an older node, and the next frame has heard of that. -/
theorem Inv.leave (h : Inv succ s (f :: g :: outer)) (hrest : f.rest = []) (hlt : f.low < f.index)
    (hlow : g.low ≤ f.low) : Inv succ s (g :: outer) where
  toFiled := h.toFiled
  toSettled := h.toSettled
  frame k hk := h.frame k (List.mem_cons_of_mem _ hk)
  inner_first := (List.pairwise_cons.mp h.inner_first).2
  upward := h.upward
  downward u hu := by
    obtain ⟨k, hk, hle, hr⟩ := h.downward u hu
    rcases List.mem_cons.mp hk with rfl | hk
    · -- The node goes on to the older node, and from there to a frame further out.
      obtain ⟨z, hz, hn, hfz⟩ := (h.frame k (by simp)).low_reached
      obtain ⟨m, hm, hmz, hzm⟩ := h.downward z hz
      refine ⟨m, ?_, by omega, (hr.trans hfz).trans hzm⟩
      rcases List.mem_cons.mp hm with rfl | hm
      · omega
      · exact hm
    · exact ⟨k, hk, hle, hr⟩
  followed u hu v hv := (h.followed u hu v hv).imp_left (pending_tail hrest)
  low_bound u hu v hv hs := by
    refine (h.low_bound u hu v hv hs).imp (pending_tail hrest) fun hb k hk hle => ?_
    obtain ⟨m, hm, hkm, hmv⟩ := hb k (List.mem_cons_of_mem _ hk) hle
    rcases List.mem_cons.mp hm with rfl | hm
    · have hp := (List.pairwise_cons.mp h.inner_first).2
      refine ⟨g, by simp, ?_, Nat.le_trans hlow hmv⟩
      rcases List.mem_cons.mp hk with rfl | hk
      · exact Nat.le_refl _
      · exact Nat.le_of_lt (List.rel_of_pairwise_cons hp hk)
    · exact ⟨m, hm, hkm, hmv⟩

/-! ## Finding a component -/

/-- What is known after a component was taken off the stack. -/
structure Taken (s t : Search α) (v : α) (members : List α) : Prop where
  stack_eq : s.stack = members ++ t.stack
  mem : v ∈ members
  /-- Its members are not older than the node. -/
  newer : ∀ u ∈ members, s.num v ≤ s.num u
  /-- What is left on the stack is older than the node. -/
  older : ∀ u ∈ t.stack, s.num u < s.num v
  index_eq : t.index = s.index
  /-- The component is the last one. -/
  components_eq : t.components = s.components.push members
  /-- Its members have its position. -/
  componentOf_eq : ∀ u : α, t.componentOf[u]? =
    if u ∈ members then some s.components.size else s.componentOf[u]?

/-- A node of the stack is closed together with the nodes above it. -/
theorem Filed.close_taken (h : Filed s) {v : α} (hv : v ∈ s.stack) :
    ∃ members, Taken s (s.close v) v members := by
  obtain ⟨above, below, hs, hsplit⟩ := splitThrough_of_mem hv
  have hsorted := h.newest_first
  rw [hs, List.pairwise_append, List.pairwise_cons] at hsorted
  obtain ⟨-, ⟨hbelow, -⟩, habove⟩ := hsorted
  refine ⟨above ++ [v], ⟨?_, by simp, fun u hu => ?_, fun u hu => ?_, ?_, ?_, fun u => ?_⟩⟩
  · simp only [close, hsplit]
    rw [hs]
    simp
  · rcases List.mem_append.mp hu with hu | hu
    · exact Nat.le_of_lt (habove u hu v (by simp))
    · obtain rfl := List.mem_singleton.mp hu
      exact Nat.le_refl _
  · simp only [close, hsplit] at hu
    exact hbelow u hu
  · simp [close]
  · simp [close, hsplit]
  · simp only [close, hsplit]
    exact getElem?_foldl_insert_const _ _ _ u

theorem Taken.num_eq {t : Search α} {v : α} {members : List α} (h : Taken s t v members) (u : α) :
    t.num u = s.num u := by
  simp [num, h.index_eq]

theorem Taken.closed_iff {t : Search α} {v : α} {members : List α} (h : Taken s t v members)
    (u : α) : t.Closed u ↔ u ∈ members ∨ s.Closed u := by
  simp only [Closed, h.components_eq, Array.mem_push]
  constructor
  · rintro ⟨c, hc | rfl, hu⟩
    · exact .inr ⟨c, hc, hu⟩
    · exact .inl hu
  · rintro (hu | ⟨c, hc, hu⟩)
    · exact ⟨members, .inr rfl, hu⟩
    · exact ⟨c, .inl hc, hu⟩

theorem Taken.getElem?_components {t : Search α} {v : α} {members : List α}
    (h : Taken s t v members) (i : Nat) (c : List α) :
    t.components[i]? = some c ↔
      s.components[i]? = some c ∨ i = s.components.size ∧ c = members := by
  rw [h.components_eq, Array.getElem?_push]
  by_cases hi : i = s.components.size
  · subst hi
    simp [eq_comm]
  · simp [hi]

/-- Members of the component move from the stack to the components and are nowhere else. -/
theorem Filed.taken {t : Search α} {v : α} {members : List α} (h : Filed s)
    (ht : Taken s t v members) : Filed t where
  met_iff u := by
    rw [ht.index_eq, h.met_iff u, ht.stack_eq, List.mem_append, ht.closed_iff u]
    rw [or_comm (a := u ∈ members), or_assoc]
  nodup := by
    have hn := h.nodup
    rw [ht.stack_eq] at hn
    rw [ht.components_eq, Array.toList_push, List.flatten_append]
    simp only [List.flatten_cons, List.flatten_nil, List.append_nil]
    refine (List.Perm.nodup_iff ?_).mp hn
    rw [List.append_assoc]
    exact List.perm_append_comm.trans (by rw [List.append_assoc])
  num_lt u hu := by
    rw [ht.num_eq, ht.index_eq]
    exact h.num_lt u (ht.index_eq ▸ hu)
  newest_first := by
    have hp := h.newest_first
    rw [ht.stack_eq] at hp
    refine (List.pairwise_append.mp hp).2.1.imp fun {a b} hab => ?_
    rwa [ht.num_eq, ht.num_eq]
  componentOf_iff u i := by
    rw [ht.componentOf_eq u]
    by_cases hu : u ∈ members
    · rw [if_pos hu]
      have hnot : ¬ ∃ c : List α, s.components[i]? = some c ∧ u ∈ c := by
        rintro ⟨c, hc, huc⟩
        refine h.not_closed_of_stack (v := u) ?_ ⟨c, Array.mem_of_getElem? hc, huc⟩
        rw [ht.stack_eq]
        exact List.mem_append_left _ hu
      constructor
      · intro he
        exact ⟨members, (ht.getElem?_components i members).mpr
          (.inr ⟨(Option.some.inj he).symm, rfl⟩), hu⟩
      · rintro ⟨c, hc, huc⟩
        rcases (ht.getElem?_components i c).mp hc with hc | ⟨rfl, -⟩
        · exact absurd ⟨c, hc, huc⟩ hnot
        · rfl
    · rw [if_neg hu, h.componentOf_iff u i]
      constructor
      · rintro ⟨c, hc, huc⟩
        exact ⟨c, (ht.getElem?_components i c).mpr (.inl hc), huc⟩
      · rintro ⟨c, hc, huc⟩
        rcases (ht.getElem?_components i c).mp hc with hc | ⟨-, rfl⟩
        · exact ⟨c, hc, huc⟩
        · exact absurd huc hu

theorem Taken.mem_stack {t : Search α} {v : α} {members : List α} (h : Taken s t v members)
    {u : α} : u ∈ t.stack ↔ u ∈ s.stack ∧ s.num u < s.num v := by
  constructor
  · intro hu
    refine ⟨?_, h.older u hu⟩
    rw [h.stack_eq]
    exact List.mem_append_right _ hu
  · rintro ⟨hu, hlt⟩
    rw [h.stack_eq] at hu
    rcases List.mem_append.mp hu with hu | hu
    · exact absurd (h.newer u hu) (Nat.not_le.mpr hlt)
    · exact hu

/-- The component has the nodes of the stack that are not older than its node. -/
theorem Taken.mem_members {t : Search α} {v : α} {members : List α} (h : Taken s t v members)
    {u : α} : u ∈ members ↔ u ∈ s.stack ∧ s.num v ≤ s.num u := by
  constructor
  · intro hu
    refine ⟨?_, h.newer u hu⟩
    rw [h.stack_eq]
    exact List.mem_append_left _ hu
  · rintro ⟨hu, hle⟩
    rw [h.stack_eq] at hu
    rcases List.mem_append.mp hu with hu | hu
    · exact hu
    · exact absurd (h.older u hu) (Nat.not_lt.mpr hle)

/-- When the innermost frame has looked at everything and knows of no older node,
no edge leaves its node and the newer ones, except for components. -/
theorem Inv.edge_of_newer (h : Inv succ s (f :: outer)) (hrest : f.rest = [])
    (hlow : f.low = f.index) {u v : α} (hu : u ∈ s.stack) (hle : f.index ≤ s.num u)
    (hv : v ∈ succ u) : v ∈ s.stack ∧ f.index ≤ s.num v ∨ s.Closed v := by
  have hpending : ¬ Pending (f :: outer) u v := by
    rintro hp
    obtain ⟨k, hk, rfl, -⟩ := pending_tail hrest hp
    have hki := (h.frame k (List.mem_cons_of_mem _ hk)).num_node
    have hkf := List.rel_of_pairwise_cons h.inner_first hk
    omega
  have hmet := (h.followed u (h.met_of_stack hu) v hv).resolve_left hpending
  rcases (h.met_iff v).mp hmet with hs | hc
  · obtain ⟨g, hg, hfg, hgv⟩ :=
      (h.low_bound u hu v hs hv).resolve_left hpending f (by simp) hle
    rcases List.mem_cons.mp hg with rfl | hg
    · exact .inl ⟨hs, hlow ▸ hgv⟩
    · have hgf := List.rel_of_pairwise_cons h.inner_first hg
      omega
  · exact .inr hc

/-- When the innermost frame has looked at everything and knows of no older node,
its node and the newer ones are a component. -/
theorem Settled.taken {t : Search α} {members : List α} (h : Inv succ s (f :: outer))
    (hrest : f.rest = []) (hlow : f.low = f.index) (ht : Taken s t f.node members) :
    Settled succ t where
  sinks_first i c hc u hu v hv := by
    have hok := h.frame f (by simp)
    rcases (ht.getElem?_components i c).mp hc with hc | ⟨rfl, rfl⟩
    · obtain ⟨j, hj, d, hd, hvd⟩ := h.sinks_first i c hc u hu v hv
      exact ⟨j, hj, d, (ht.getElem?_components j d).mpr (.inl hd), hvd⟩
    · obtain ⟨hus, hnum⟩ := ht.mem_members.mp hu
      rcases h.edge_of_newer hrest hlow hus (hok.num_node ▸ hnum) hv with ⟨hvs, hvn⟩ | ⟨d, hd, hvd⟩
      · exact ⟨_, Nat.le_refl _, c, (ht.getElem?_components _ c).mpr (.inr ⟨rfl, rfl⟩),
          ht.mem_members.mpr ⟨hvs, hok.num_node ▸ hvn⟩⟩
      · obtain ⟨j, hj⟩ := Array.getElem?_of_mem hd
        obtain ⟨hlt, -⟩ := Array.getElem?_eq_some_iff.mp hj
        exact ⟨j, Nat.le_of_lt hlt, d, (ht.getElem?_components j d).mpr (.inl hj), hvd⟩
  connected c hc u hu v hv := by
    rw [ht.components_eq, Array.mem_push] at hc
    rcases hc with hc | rfl
    · exact h.connected c hc u hu v hv
    · obtain ⟨hus, -⟩ := ht.mem_members.mp hu
      obtain ⟨hvs, hle⟩ := ht.mem_members.mp hv
      exact (h.reaches_head hus).trans (h.upward _ (h.frame f (by simp)).on_stack v hvs hle)
  inhabited c hc := by
    rw [ht.components_eq, Array.mem_push] at hc
    rcases hc with hc | rfl
    · exact h.inhabited c hc
    · exact List.ne_nil_of_mem ht.mem

/-- The innermost frame may be closed when it has looked at everything and knows
of no older node. -/
theorem Inv.close (h : Inv succ s (f :: outer)) (hrest : f.rest = []) (hlow : f.low = f.index) :
    Inv succ (s.close f.node) outer := by
  have hok := h.frame f (by simp)
  obtain ⟨members, ht⟩ := h.toFiled.close_taken hok.on_stack
  have houter : ∀ k ∈ outer, k.index < f.index := fun k hk =>
    List.rel_of_pairwise_cons h.inner_first hk
  exact {
    toFiled := h.toFiled.taken ht
    toSettled := .taken h hrest hlow ht
    frame := fun k hk => by
      have hkok := h.frame k (List.mem_cons_of_mem _ hk)
      have hkf := houter k hk
      obtain ⟨z, hz, hzk, hr⟩ := hkok.low_reached
      have hle := hkok.low_le
      refine ⟨ht.mem_stack.mpr ⟨hkok.on_stack, ?_⟩, ?_, hkok.rest_sub, hle, z,
        ht.mem_stack.mpr ⟨hz, ?_⟩, ?_, hr⟩
      · rwa [hkok.num_node, hok.num_node]
      · rw [ht.num_eq, hkok.num_node]
      · rw [hzk, hok.num_node]
        omega
      · rw [ht.num_eq, hzk]
    inner_first := (List.pairwise_cons.mp h.inner_first).2
    upward := fun u hu v hv hle => by
      rw [ht.num_eq, ht.num_eq] at hle
      exact h.upward u (ht.mem_stack.mp hu).1 v (ht.mem_stack.mp hv).1 hle
    downward := fun u hu => by
      obtain ⟨hus, hlt⟩ := ht.mem_stack.mp hu
      obtain ⟨k, hk, hle, hr⟩ := h.downward u hus
      rw [hok.num_node] at hlt
      refine ⟨k, ?_, by rwa [ht.num_eq], hr⟩
      rcases List.mem_cons.mp hk with rfl | hk
      · omega
      · exact hk
    followed := fun u hu v hv => by
      rw [ht.index_eq] at hu ⊢
      exact (h.followed u hu v hv).imp_left (pending_tail hrest)
    low_bound := fun u hu v hv hs => by
      obtain ⟨hus, -⟩ := ht.mem_stack.mp hu
      obtain ⟨hvs, hlt⟩ := ht.mem_stack.mp hv
      refine (h.low_bound u hus v hvs hs).imp (pending_tail hrest) fun hb k hk hle => ?_
      rw [ht.num_eq] at hle ⊢
      obtain ⟨m, hm, hkm, hmv⟩ := hb k (List.mem_cons_of_mem _ hk) hle
      rcases List.mem_cons.mp hm with rfl | hm
      · rw [hok.num_node] at hlt
        omega
      · exact ⟨m, hm, hkm, hmv⟩ }

end Search

end PmemPaths.Graph
