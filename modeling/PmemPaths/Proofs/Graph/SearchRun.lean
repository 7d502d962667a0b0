import Mathlib.Algebra.BigOperators.Group.Finset.Basic
import Mathlib.Algebra.GroupWithZero.Nat
import PmemPaths.Proofs.Graph.SearchInvariant

/-!
# Runs of the search

Every step of the search keeps its invariant (`Inv.advance`), and uses up an edge
or a frame (`todo_advance`).  So a run that is given enough steps ends with no
frame left, and then every node that was met is in a component (`Inv.run`).
-/

namespace PmemPaths.Graph.Search

variable {α : Type} [DecidableEq α] [Hashable α]
variable {succ : α → List α} {s : Search α} {frames outer : List (Frame α)} {f g : Frame α}

/-! ## One step -/

theorem advance_enter (succ : α → List α) (s : Search α) {f : Frame α} {w : α} {rest : List α}
    (hr : f.rest = w :: rest) (hi : s.index[w]? = none) (outer : List (Frame α)) :
    s.advance succ f outer =
      ((s.enter succ w).1, (s.enter succ w).2 :: { f with rest } :: outer) := by
  simp [advance, hr, hi]

theorem advance_skip (succ : α → List α) (s : Search α) {f : Frame α} {w : α} {rest : List α}
    {i : Nat} (hr : f.rest = w :: rest) (hi : s.index[w]? = some i)
    (hc : s.componentOf.contains w = true) (outer : List (Frame α)) :
    s.advance succ f outer = (s, { f with rest } :: outer) := by
  simp [advance, hr, hi, hc]

theorem advance_lower (succ : α → List α) (s : Search α) {f : Frame α} {w : α} {rest : List α}
    {i : Nat} (hr : f.rest = w :: rest) (hi : s.index[w]? = some i)
    (hc : s.componentOf.contains w = false) (outer : List (Frame α)) :
    s.advance succ f outer = (s, { f with rest, low := min f.low i } :: outer) := by
  simp [advance, hr, hi, hc]

/-- The frames after the innermost one was left. -/
def handDown (low : Nat) : List (Frame α) → List (Frame α)
  | [] => []
  | g :: gs => { g with low := min g.low low } :: gs

theorem advance_leave (succ : α → List α) (s : Search α) {f : Frame α} (hr : f.rest = [])
    (outer : List (Frame α)) :
    s.advance succ f outer =
      (if f.low = f.index then s.close f.node else s, handDown f.low outer) := by
  cases outer <;> simp [advance, hr, handDown]

/-- A frame may take note that it has looked at an edge to a component. -/
theorem Inv.skip {w : α} {rest : List α} (h : Inv succ s (f :: outer)) (hr : f.rest = w :: rest)
    (hc : s.Closed w) : Inv succ s ({ f with rest } :: outer) := by
  refine h.learn [] ⟨rfl, rfl, Nat.le_refl _, (h.frame f (by simp)).low_reached, ?_, ?_⟩
  · intro v hv
    rw [hr]
    exact List.mem_cons_of_mem _ hv
  · intro v hv
    rcases List.mem_cons.mp (hr ▸ hv) with rfl | hv
    · exact .inr ⟨(h.met_iff v).mpr (.inr hc), fun hs => absurd hc (h.not_closed_of_stack hs)⟩
    · exact .inl hv

/-- A frame may take note of an edge within the stack. -/
theorem Inv.lower {w : α} {rest : List α} (h : Inv succ s (f :: outer)) (hr : f.rest = w :: rest)
    (hw : w ∈ s.stack) : Inv succ s ({ f with rest, low := min f.low (s.num w) } :: outer) := by
  have hok := h.frame f (by simp)
  refine h.learn [] ⟨rfl, rfl, Nat.min_le_left _ _, ?_, ?_, ?_⟩
  · show ∃ v ∈ s.stack, s.num v = min f.low (s.num w) ∧ Reaches succ f.node v
    rcases Nat.le_total f.low (s.num w) with hle | hle
    · rw [Nat.min_eq_left hle]
      exact hok.low_reached
    · rw [Nat.min_eq_right hle]
      exact ⟨w, hw, rfl, .single (hok.rest_sub w (by simp [hr]))⟩
  · intro v hv
    rw [hr]
    exact List.mem_cons_of_mem _ hv
  · intro v hv
    rcases List.mem_cons.mp (hr ▸ hv) with rfl | hv
    · exact .inr ⟨h.met_of_stack hw, fun _ => Nat.min_le_right _ _⟩
    · exact .inl hv

theorem Inv.descend {w : α} {rest : List α} (h : Inv succ s (f :: outer)) (hr : f.rest = w :: rest)
    (hw : w ∉ s.index) :
    Inv succ (s.enter succ w).1 ((s.enter succ w).2 :: { f with rest } :: outer) := by
  have hok := h.frame f (by simp)
  have he := h.enter hw fun u hu =>
    (h.reaches_head hu).tail (hok.rest_sub w (by simp [hr]))
  have hok' := he.frame f (by simp)
  refine he.learn [(s.enter succ w).2]
    ⟨rfl, rfl, Nat.le_refl _, hok'.low_reached, ?_, ?_⟩
  · intro v hv
    rw [hr]
    exact List.mem_cons_of_mem _ hv
  · intro v hv
    rcases List.mem_cons.mp (hr ▸ hv) with rfl | hv
    · refine .inr ⟨mem_index_enter.mpr (.inl rfl), fun _ => ?_⟩
      rw [num_enter, if_pos rfl]
      have hlt := h.num_lt f.node (h.met_of_stack hok.on_stack)
      rw [hok.num_node] at hlt
      exact Nat.le_trans hok.low_le (Nat.le_of_lt hlt)
    · exact .inl hv

/-- What a frame knows may be handed down. -/
theorem Inv.hand (h : Inv succ s (f :: g :: outer)) :
    Inv succ s (f :: { g with low := min g.low f.low } :: outer) := by
  have hf := h.frame f (by simp)
  have hg := h.frame g (by simp)
  refine h.learn [f] ⟨rfl, rfl, Nat.min_le_left _ _, ?_, fun v hv => hv, fun v hv => .inl hv⟩
  show ∃ v ∈ s.stack, s.num v = min g.low f.low ∧ Reaches succ g.node v
  rcases Nat.le_total g.low f.low with hle | hle
  · rw [Nat.min_eq_left hle]
    exact hg.low_reached
  · rw [Nat.min_eq_right hle]
    obtain ⟨z, hz, hn, hr⟩ := hf.low_reached
    refine ⟨z, hz, hn, (h.upward _ hg.on_stack _ hf.on_stack ?_).trans hr⟩
    rw [hg.num_node, hf.num_node]
    exact Nat.le_of_lt (List.rel_of_pairwise_cons h.inner_first (by simp))

/-- A frame that knows of an older node is not the outermost one. -/
theorem Inv.outer_ne_nil (h : Inv succ s [f]) : f.low = f.index := by
  have hok := h.frame f (by simp)
  obtain ⟨z, hz, hn, -⟩ := hok.low_reached
  obtain ⟨k, hk, hle, -⟩ := h.downward z hz
  rw [List.mem_singleton.mp hk] at hle
  have := hok.low_le
  omega

theorem Inv.advance (h : Inv succ s (f :: outer)) :
    Inv succ (s.advance succ f outer).1 (s.advance succ f outer).2 := by
  rcases hr : f.rest with _ | ⟨w, rest⟩
  · rw [advance_leave succ s hr]
    by_cases hlow : f.low = f.index
    · rw [if_pos hlow]
      -- The next frame knows of a node at least as old as itself.
      have hsame : handDown f.low outer = outer := by
        rcases outer with _ | ⟨g, gs⟩
        · rfl
        · have hgf := List.rel_of_pairwise_cons h.inner_first (by simp : g ∈ g :: gs)
          have hg := (h.frame g (by simp)).low_le
          rw [handDown, Nat.min_eq_left (by omega)]
      rw [hsame]
      exact h.close hr hlow
    · rw [if_neg hlow]
      have hlt := Nat.lt_of_le_of_ne (h.frame f (by simp)).low_le hlow
      rcases outer with _ | ⟨g, gs⟩
      · exact absurd h.outer_ne_nil hlow
      · exact h.hand.leave hr hlt (Nat.min_le_right _ _)
  · rcases hi : s.index[w]? with _ | i
    · rw [advance_enter succ s hr hi]
      exact h.descend hr (by simpa using hi)
    · have hw : w ∈ s.index := Std.HashMap.mem_iff_isSome_getElem?.mpr (by simp [hi])
      rcases hc : s.componentOf.contains w with _ | _
      · rw [advance_lower succ s hr hi hc, ← num_of_getElem? hi]
        refine h.lower hr (((h.met_iff w).mp hw).resolve_right fun hcl => ?_)
        rw [(h.contains_componentOf w).mpr hcl] at hc
        simp at hc
      · rw [advance_skip succ s hr hi hc]
        exact h.skip hr ((h.contains_componentOf w).mp hc)

/-! ## What is left to do -/

/-- The steps that the frames and the nodes of a set that were not met still
call for: one for each of them and one for each of their edges. -/
def todo (succ : α → List α) (nodes : Finset α) (s : Search α) (frames : List (Frame α)) : Nat :=
  (frames.map fun f => f.rest.length + 1).sum +
    ∑ v ∈ nodes.filter (· ∉ s.index), ((succ v).length + 1)

variable {nodes : Finset α}

theorem todo_enter {v : α} (hv : v ∈ nodes) (hm : v ∉ s.index) (frames : List (Frame α)) :
    todo succ nodes (s.enter succ v).1 ((s.enter succ v).2 :: frames) =
      todo succ nodes s frames := by
  have hmem : v ∈ nodes.filter (· ∉ s.index) := Finset.mem_filter.mpr ⟨hv, hm⟩
  have herase : nodes.filter (· ∉ (s.enter succ v).1.index) =
      (nodes.filter (· ∉ s.index)).erase v := by
    ext w
    simp only [Finset.mem_filter, Finset.mem_erase, mem_index_enter, not_or]
    constructor
    · rintro ⟨hw, hne, hn⟩
      exact ⟨Ne.symm hne, hw, hn⟩
    · rintro ⟨hne, hw, hn⟩
      exact ⟨hw, Ne.symm hne, hn⟩
  have hsum := Finset.add_sum_erase _ (fun w => (succ w).length + 1) hmem
  have hrest : (s.enter succ v).2.rest = succ v := rfl
  simp only [todo, List.map_cons, List.sum_cons, hrest, herase]
  omega

theorem todo_index_eq {t : Search α} (h : t.index = s.index) (frames : List (Frame α)) :
    todo succ nodes t frames = todo succ nodes s frames := by
  simp [todo, h]

theorem todo_handDown (low : Nat) (frames : List (Frame α)) :
    todo succ nodes s (handDown low frames) = todo succ nodes s frames := by
  cases frames <;> simp [todo, handDown]

/-- Every step uses up an edge or a frame. -/
theorem todo_advance (hsucc : ∀ v ∈ f.rest, v ∈ nodes) :
    todo succ nodes (s.advance succ f outer).1 (s.advance succ f outer).2 + 1 =
      todo succ nodes s (f :: outer) := by
  rcases hr : f.rest with _ | ⟨w, rest⟩
  · rw [advance_leave succ s hr, todo_handDown]
    have hi : (if f.low = f.index then s.close f.node else s).index = s.index := by
      split
      · rfl
      · rfl
    rw [todo_index_eq hi]
    simp only [todo, List.map_cons, List.sum_cons, hr, List.length_nil]
    omega
  · rcases hi : s.index[w]? with _ | i
    · rw [advance_enter succ s hr hi, todo_enter (hsucc w (by simp [hr])) (by simpa using hi)]
      simp only [todo, List.map_cons, List.sum_cons, hr, List.length_cons]
      omega
    · rcases hc : s.componentOf.contains w with _ | _
      · rw [advance_lower succ s hr hi hc]
        simp only [todo, List.map_cons, List.sum_cons, hr, List.length_cons]
        omega
      · rw [advance_skip succ s hr hi hc]
        simp only [todo, List.map_cons, List.sum_cons, hr, List.length_cons]
        omega

theorem mem_index_advance {v : α} :
    (v ∈ s.index → v ∈ (s.advance succ f outer).1.index) ∧
      (v ∈ (s.advance succ f outer).1.index → v ∈ s.index ∨ v ∈ f.rest) := by
  rcases hr : f.rest with _ | ⟨w, rest⟩
  · rw [advance_leave succ s hr]
    have hi : (if f.low = f.index then s.close f.node else s).index = s.index := by
      split
      · rfl
      · rfl
    rw [hi]
    exact ⟨id, .inl⟩
  · rcases hi : s.index[w]? with _ | i
    · rw [advance_enter succ s hr hi, mem_index_enter]
      refine ⟨.inr, fun h => ?_⟩
      rcases h with rfl | h
      · exact .inr List.mem_cons_self
      · exact .inl h
    · rcases hc : s.componentOf.contains w with _ | _
      · rw [advance_lower succ s hr hi hc]
        exact ⟨id, .inl⟩
      · rw [advance_skip succ s hr hi hc]
        exact ⟨id, .inl⟩

/-! ## Runs -/

/-- A run that is given enough steps keeps the invariant and ends without frames.
It has then met its roots, and nothing outside a set of nodes that is closed under
edges. -/
theorem Inv.run {n : Nat} {roots : List α} (h : Inv succ s frames)
    (hclosed : ∀ u ∈ nodes, ∀ v ∈ succ u, v ∈ nodes) (hmet : ∀ v ∈ s.index, v ∈ nodes)
    (hroots : ∀ v ∈ roots, v ∈ nodes) (hn : todo succ nodes s frames + roots.length ≤ n) :
    Inv succ (Search.run succ n s frames roots) [] ∧
      (∀ v, v ∈ s.index ∨ v ∈ roots → v ∈ (Search.run succ n s frames roots).index) ∧
      ∀ v ∈ (Search.run succ n s frames roots).index, v ∈ nodes := by
  induction n generalizing s frames roots with
  | zero =>
    rcases frames with _ | ⟨f, outer⟩
    · rcases roots with _ | ⟨r, roots⟩
      · exact ⟨h, fun v hv => hv.resolve_right (by simp), hmet⟩
      · simp at hn
    · simp only [todo, List.map_cons, List.sum_cons] at hn
      omega
  | succ n ih =>
    rcases frames with _ | ⟨f, outer⟩
    · rcases roots with _ | ⟨r, roots⟩
      · exact ⟨h, fun v hv => hv.resolve_right (by simp), hmet⟩
      rw [List.length_cons] at hn
      have hroots' : ∀ v ∈ roots, v ∈ nodes := fun v hv => hroots v (List.mem_cons_of_mem _ hv)
      by_cases hr : r ∈ s.index
      · have hrun : Search.run succ (n + 1) s [] (r :: roots) = Search.run succ n s [] roots := by
          simp [Search.run, hr]
        obtain ⟨hi, hsub, hin⟩ := ih h hmet hroots' (by omega)
        rw [hrun]
        refine ⟨hi, fun v hv => hsub v ?_, hin⟩
        rcases hv with hv | hv
        · exact .inl hv
        · rcases List.mem_cons.mp hv with rfl | hv
          · exact .inl hr
          · exact .inr hv
      · have hrun : Search.run succ (n + 1) s [] (r :: roots) =
            Search.run succ n (s.enter succ r).1 [(s.enter succ r).2] roots := by
          simp [Search.run, hr]
        have hrn := hroots r (by simp)
        have hstack : ∀ u ∈ s.stack, Reaches succ u r := by
          simp [h.toTracked.stack_eq_nil]
        have hmet' : ∀ v ∈ (s.enter succ r).1.index, v ∈ nodes := by
          intro v hv
          rcases mem_index_enter.mp hv with rfl | hv
          · exact hrn
          · exact hmet v hv
        obtain ⟨hi, hsub, hin⟩ := ih (h.enter hr hstack) hmet' hroots'
          (by rw [todo_enter hrn hr]; omega)
        rw [hrun]
        refine ⟨hi, fun v hv => hsub v ?_, hin⟩
        rw [mem_index_enter]
        rcases hv with hv | hv
        · exact .inl (.inr hv)
        · rcases List.mem_cons.mp hv with rfl | hv
          · exact .inl (.inl rfl)
          · exact .inr hv
    · have hok := h.frame f (by simp)
      have hrest : ∀ v ∈ f.rest, v ∈ nodes := fun v hv =>
        hclosed _ (hmet _ (h.met_of_stack hok.on_stack)) v (hok.rest_sub v hv)
      have htodo : todo succ nodes (s.advance succ f outer).1 (s.advance succ f outer).2 + 1 =
          todo succ nodes s (f :: outer) := todo_advance hrest
      have hmet' : ∀ v ∈ (s.advance succ f outer).1.index, v ∈ nodes := by
        intro v hv
        rcases mem_index_advance.2 hv with hv | hv
        · exact hmet v hv
        · exact hrest v hv
      obtain ⟨hi, hsub, hin⟩ := ih h.advance hmet' hroots (by omega)
      have hrun : Search.run succ (n + 1) s (f :: outer) roots =
          Search.run succ n (s.advance succ f outer).1 (s.advance succ f outer).2 roots := rfl
      rw [hrun]
      exact ⟨hi, fun v hv => hsub v (hv.imp_left mem_index_advance.1), hin⟩

end PmemPaths.Graph.Search
