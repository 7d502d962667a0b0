import Mathlib.Algebra.BigOperators.Group.Finset.Piecewise
import Mathlib.Algebra.Order.BigOperators.Group.Finset
import PmemPaths.Proofs.Graph.SearchRun

/-!
# The partition of a graph

The components that `Partition.ofEdges` gives are the strongly connected
components of the graph, for any list of nodes and any list of edges
(`Partition.ofEdges_isComponents`).  They come sinks first: an edge from one to
another leads to an earlier one (`Partition.ofEdges_sinksFirst`), and what a pass over
them keeps is shown for one component (`foldl_found`).  The number of steps it allows the
search is enough (`todo_start`), so the search ends with all nodes in components.
-/

namespace PmemPaths.Graph

variable {α : Type}

/-! ## Graphs -/

/-- An edge of the graph. -/
abbrev Edge (edges : List (α × α)) (u v : α) : Prop := (u, v) ∈ edges

/-- A node is listed, or an end of an edge. -/
def Mentioned (nodes : List α) (edges : List (α × α)) (v : α) : Prop :=
  v ∈ nodes ∨ ∃ u, Edge edges u v ∨ Edge edges v u

/-- Each of two nodes reaches the other. -/
def Mutual (edges : List (α × α)) (u v : α) : Prop :=
  Relation.ReflTransGen (Edge edges) u v ∧ Relation.ReflTransGen (Edge edges) v u

/-- A node lies on a cycle. -/
def OnCycle (edges : List (α × α)) (v : α) : Prop := Relation.TransGen (Edge edges) v v

theorem mem_rootOrder {nodes : List α} {edges : List (α × α)} {v : α} :
    v ∈ rootOrder nodes edges ↔ Mentioned nodes edges v := by
  simp only [rootOrder, Mentioned, List.mem_append, List.mem_flatMap, List.mem_cons,
    List.not_mem_nil, or_false]
  refine or_congr_right ⟨?_, ?_⟩
  · rintro ⟨⟨a, b⟩, he, rfl | rfl⟩
    · exact ⟨b, .inr he⟩
    · exact ⟨a, .inl he⟩
  · rintro ⟨u, he | he⟩
    · exact ⟨(u, v), he, .inr rfl⟩
    · exact ⟨(v, u), he, .inl rfl⟩

variable [DecidableEq α] [Hashable α]

/-- The successors of a node, as the search sees them. -/
def successors (edges : List (α × α)) (v : α) : List α := (successorTable edges).getD v []

theorem successors_cons (e : α × α) (edges : List (α × α)) (u : α) :
    successors (e :: edges) u =
      if e.1 = u then e.2 :: successors edges u else successors edges u := by
  simp only [successors, successorTable, List.foldr_cons, Std.HashMap.getD_insert, beq_iff_eq]
  split
  · next h => rw [h]
  · rfl

theorem mem_successors {edges : List (α × α)} {u v : α} :
    v ∈ successors edges u ↔ Edge edges u v := by
  induction edges with
  | nil => simp [successors, successorTable]
  | cons e edges ih =>
    rw [successors_cons]
    obtain ⟨a, b⟩ := e
    by_cases hu : a = u
    · subst hu
      simp [ih]
    · simp [hu, ih, Ne.symm hu]

/-- Every edge leaves one node. -/
theorem sum_successors_le (edges : List (α × α)) (nodes : Finset α) :
    ∑ v ∈ nodes, (successors edges v).length ≤ edges.length := by
  induction edges with
  | nil => simp [successors, successorTable]
  | cons e edges ih =>
    have hsplit : ∀ v ∈ nodes, (successors (e :: edges) v).length =
        (if e.1 = v then 1 else 0) + (successors edges v).length := by
      intro v _
      rw [successors_cons]
      split
      · rw [List.length_cons, Nat.add_comm]
      · rw [Nat.zero_add]
    rw [Finset.sum_congr rfl hsplit, Finset.sum_add_distrib, Finset.sum_ite_eq, List.length_cons]
    split <;> omega

def search (nodes : List α) (edges : List (α × α)) : Search α :=
  Search.run (successors edges) (2 * (rootOrder nodes edges).length + edges.length) {} []
    (rootOrder nodes edges)

/-- At the start no more steps are called for than the search is given. -/
theorem todo_start (nodes : List α) (edges : List (α × α)) :
    Search.todo (successors edges) (rootOrder nodes edges).toFinset {} [] +
        (rootOrder nodes edges).length ≤
      2 * (rootOrder nodes edges).length + edges.length := by
  have hsum := sum_successors_le edges (rootOrder nodes edges).toFinset
  have hcard := List.toFinset_card_le (rootOrder nodes edges)
  simp only [Search.todo, List.map_nil, List.sum_nil, Std.HashMap.not_mem_empty, not_false_eq_true,
    Finset.filter_true, Finset.sum_add_distrib, ← Finset.card_eq_sum_ones]
  omega

/-- The search keeps its invariant and meets the mentioned nodes. -/
theorem search_spec (nodes : List α) (edges : List (α × α)) :
    Search.Inv (successors edges) (search nodes edges) [] ∧
      ∀ v, v ∈ (search nodes edges).index ↔ Mentioned nodes edges v := by
  have hclosed : ∀ u ∈ (rootOrder nodes edges).toFinset, ∀ v ∈ successors edges u,
      v ∈ (rootOrder nodes edges).toFinset := by
    intro u _ v hv
    rw [List.mem_toFinset, mem_rootOrder]
    exact .inr ⟨u, .inl (mem_successors.mp hv)⟩
  obtain ⟨hi, hmet, honly⟩ := Search.Inv.start.run hclosed (by simp) (by simp)
    (todo_start nodes edges)
  refine ⟨hi, fun v => ⟨fun hv => ?_, fun hv => ?_⟩⟩
  · exact mem_rootOrder.mp (List.mem_toFinset.mp (honly v hv))
  · exact hmet v (.inr (mem_rootOrder.mpr hv))

/-! ## Tables of components -/

/-- The component tables hold, for each member, what its component gives. -/
theorem getElem?_fold_components {β : Type} (b : List α → Option β) (cs : List (List α))
    (m : Std.HashMap α β) (v : α) (hd : cs.flatten.Nodup) :
    (cs.foldl (fun m c => (b c).elim m fun r => c.foldl (fun m v => m.insert v r) m) m)[v]? =
      ((cs.find? (v ∈ ·)).bind b).or m[v]? := by
  induction cs generalizing m with
  | nil => rfl
  | cons c cs ih =>
    rw [List.flatten_cons, List.nodup_append] at hd
    rw [List.foldl_cons, ih _ hd.2.1, List.find?_cons]
    by_cases hv : v ∈ c
    · have hnot : cs.find? (v ∈ ·) = none := by
        rw [List.find?_eq_none]
        intro d hdc hvd
        exact hd.2.2 v hv v (List.mem_flatten.mpr ⟨d, hdc, by simpa using hvd⟩) rfl
      rw [hnot]
      rcases hb : b c with _ | r
      · simp [hv, hb]
      · simp [hv, hb, getElem?_foldl_insert_const]
    · rcases hb : b c with _ | r
      · simp [hv]
      · simp [hv, getElem?_foldl_insert_const]

theorem mem_foldl_insertMany (cs : List (List α)) (m : Std.HashSet α) (v : α) :
    v ∈ cs.foldl (fun m c => m.insertMany c) m ↔ v ∈ m ∨ ∃ c ∈ cs, v ∈ c := by
  induction cs generalizing m with
  | nil => simp
  | cons c cs ih =>
    rw [List.foldl_cons, ih, Std.HashSet.mem_insertMany_list, List.contains_iff_mem, or_assoc]
    simp

omit [DecidableEq α] [Hashable α] in
theorem least?_spec [Ord α] [Std.TransOrd α] {l : List α} {r : α} (h : least? l = some r) :
    r ∈ l ∧ ∀ x ∈ l, (compare r x).isLE := by
  rcases l with _ | ⟨x, xs⟩
  · simp [least?] at h
  rw [least?, Option.some.injEq] at h
  subst h
  induction xs generalizing x with
  | nil => simp
  | cons y ys ih =>
    rw [List.foldl_cons]
    split
    · next hlt =>
      obtain ⟨hmem, hle⟩ := ih y
      refine ⟨List.mem_cons_of_mem _ hmem, fun z hz => ?_⟩
      rcases List.mem_cons.mp hz with rfl | hz
      · exact Std.TransOrd.isLE_trans (hle y (by simp))
          (Ordering.isLE_of_eq_lt (by simpa using hlt))
      · exact hle z hz
    · next hge =>
      obtain ⟨hmem, hle⟩ := ih x
      refine ⟨?_, fun z hz => ?_⟩
      · rcases List.mem_cons.mp hmem with he | hmem
        · exact List.mem_cons.mpr (.inl he)
        · exact List.mem_cons_of_mem _ (List.mem_cons_of_mem _ hmem)
      · simp only [List.mem_cons] at hz
        rcases hz with rfl | rfl | hz
        · exact hle z (by simp)
        · exact Std.TransOrd.isLE_trans (hle x (by simp)) (by
            rw [Std.OrientedOrd.eq_swap (a := x)]
            revert hge
            cases compare z x <;> simp)
        · exact hle z (by simp [hz])

/-! ## What the search found -/

theorem reaches_iff {edges : List (α × α)} {u v : α} :
    Reaches (successors edges) u v ↔ Relation.ReflTransGen (Edge edges) u v := by
  have he : (fun u v => v ∈ successors edges u) = Edge edges := by
    funext u v
    exact propext mem_successors
  rw [Reaches, he]

/-- From a component only earlier components can be reached. -/
theorem Search.Settled.reaches {succ : α → List α} {s : Search α} (h : s.Settled succ) {u v : α}
    (hr : Reaches succ u v) {i : Nat} {c : List α} (hc : s.components[i]? = some c) (hu : u ∈ c) :
    ∃ j ≤ i, ∃ d : List α, s.components[j]? = some d ∧ v ∈ d := by
  induction hr with
  | refl => exact ⟨i, Nat.le_refl _, c, hc, hu⟩
  | tail _ hvw ih =>
    obtain ⟨j, hj, d, hd, hv⟩ := ih
    obtain ⟨k, hk, e, he, hw⟩ := h.sinks_first j d hd _ hv _ hvw
    exact ⟨k, Nat.le_trans hk hj, e, he, hw⟩

variable (nodes : List α) (edges : List (α × α))

def found : List (List α) := (search nodes edges).components.toList

theorem found_nodup : (found nodes edges).flatten.Nodup := by
  have hn := (search_spec nodes edges).1.nodup
  rw [List.nodup_append] at hn
  exact hn.2.1

theorem mem_found {v : α} : (∃ c ∈ found nodes edges, v ∈ c) ↔ Mentioned nodes edges v := by
  obtain ⟨hi, hmet⟩ := search_spec nodes edges
  rw [← hmet v, hi.met_iff v, hi.toTracked.stack_eq_nil]
  simp [found, Search.Closed]

theorem componentOf_found {v : α} {i : Nat} :
    (search nodes edges).componentOf[v]? = some i ↔
      ∃ c, (found nodes edges)[i]? = some c ∧ v ∈ c := by
  rw [(search_spec nodes edges).1.componentOf_iff v i]
  simp [found]

theorem found_unique {v : α} {c d : List α} (hc : c ∈ found nodes edges) (hv : v ∈ c)
    (hd : d ∈ found nodes edges) (hv' : v ∈ d) : c = d := by
  obtain ⟨i, hi⟩ := List.getElem?_of_mem hc
  obtain ⟨j, hj⟩ := List.getElem?_of_mem hd
  have hvi := (componentOf_found nodes edges).mpr ⟨c, hi, hv⟩
  have hvj := (componentOf_found nodes edges).mpr ⟨d, hj, hv'⟩
  rw [hvi, Option.some.injEq] at hvj
  rw [hvj, hj, Option.some.injEq] at hi
  exact hi.symm

/-- An edge stays in its component or goes to an earlier one. -/
theorem found_sinks_first {u v : α} {before after : List (List α)} {c : List α}
    (h : found nodes edges = before ++ c :: after) (hu : u ∈ c) (he : Edge edges u v) :
    v ∈ c ∨ v ∈ before.flatten := by
  have hget : ∀ i : Nat, (search nodes edges).components[i]? = (before ++ c :: after)[i]? := by
    intro i
    rw [← h, found, Array.getElem?_toList]
  have hc : (search nodes edges).components[before.length]? = some c := by
    rw [hget, List.getElem?_append_right (Nat.le_refl _), Nat.sub_self, List.getElem?_cons_zero]
  obtain ⟨j, hj, d, hd, hv⟩ :=
    (search_spec nodes edges).1.sinks_first _ c hc u hu v (mem_successors.mpr he)
  obtain rfl | hlt := Nat.eq_or_lt_of_le hj
  · rw [hc, Option.some.injEq] at hd
    exact .inl (hd ▸ hv)
  · rw [hget, List.getElem?_append_left hlt] at hd
    exact .inr (List.mem_flatten.mpr ⟨d, List.mem_of_getElem? hd, hv⟩)

/-- The members of a component are the nodes that reach it and are reached. -/
theorem mem_found_iff_mutual {u v : α} {c : List α} (hc : c ∈ found nodes edges) (hu : u ∈ c) :
    v ∈ c ↔ Mutual edges u v := by
  have hi := (search_spec nodes edges).1
  constructor
  · intro hv
    have hca : c ∈ (search nodes edges).components := by simpa [found] using hc
    exact ⟨reaches_iff.mp (hi.connected c hca u hu v hv),
      reaches_iff.mp (hi.connected c hca v hv u hu)⟩
  · rintro ⟨huv, hvu⟩
    obtain ⟨i, hci⟩ := List.getElem?_of_mem hc
    have hsi : (search nodes edges).components[i]? = some c := by simpa [found] using hci
    obtain ⟨j, hj, d, hd, hv⟩ := hi.toSettled.reaches (reaches_iff.mpr huv) hsi hu
    obtain ⟨k, hk, e, he, hu'⟩ := hi.toSettled.reaches (reaches_iff.mpr hvu) hd hv
    -- Both ways go to earlier positions, so the position stays.
    have hik : (search nodes edges).componentOf[u]? = some k :=
      (hi.componentOf_iff u k).mpr ⟨e, he, hu'⟩
    rw [(hi.componentOf_iff u i).mpr ⟨c, hsi, hu⟩, Option.some.injEq] at hik
    have hij : i = j := by omega
    rw [← hij, hsi, Option.some.injEq] at hd
    exact hd ▸ hv

/-- What holds at first and is kept by a step for each component holds in the end.  The
components are taken in the order in which they come, so from one of them edges stay in it or
lead to what was taken before. -/
theorem foldl_found {β : Type} {P : List α → β → Prop} {step : β → List α → β} {b : β}
    (start : P [] b)
    (component : ∀ done b c, P done b → c ∈ found nodes edges → c.Nodup →
      (∀ v ∈ c, v ∉ done) → (∀ u ∈ c, ∀ v, Edge edges u v → v ∈ c ∨ v ∈ done) →
      (∀ u ∈ done, ∀ v, Edge edges u v → v ∈ done) → P (done ++ c) (step b c)) :
    P (found nodes edges).flatten ((found nodes edges).foldl step b) := by
  have hpass : ∀ before after, found nodes edges = before ++ after →
      P before.flatten (before.foldl step b) ∧
        ∀ u ∈ before.flatten, ∀ v, Edge edges u v → v ∈ before.flatten := by
    intro before
    induction before using List.reverseRecOn with
    | nil => exact fun _ _ => ⟨start, fun u hu => absurd hu List.not_mem_nil⟩
    | append_singleton before c ih =>
      intro after h
      rw [List.append_assoc, List.singleton_append] at h
      obtain ⟨hP, hclosed⟩ := ih _ h
      have hc : c ∈ found nodes edges := h ▸ List.mem_append_right _ List.mem_cons_self
      have hnodup := found_nodup nodes edges
      rw [h, List.flatten_append, List.flatten_cons, List.nodup_append,
        List.nodup_append] at hnodup
      have hnew : ∀ v ∈ c, v ∉ before.flatten := fun v hv hbefore =>
        hnodup.2.2 v hbefore v (List.mem_append_left _ hv) rfl
      have hleave : ∀ u ∈ c, ∀ v, Edge edges u v → v ∈ c ∨ v ∈ before.flatten :=
        fun u hu v he => found_sinks_first nodes edges h hu he
      rw [List.foldl_append, List.flatten_append, List.flatten_singleton]
      refine ⟨component _ _ c hP hc hnodup.2.1.1 hnew hleave hclosed, ?_⟩
      intro u hu v he
      rw [List.mem_append] at hu ⊢
      rcases hu with hu | hu
      · exact .inl (hclosed u hu v he)
      · exact (hleave u hu v he).symm
  exact (hpass _ [] (List.append_nil _).symm).1

/-- A component has more than one member or an edge from its member to itself if
a member lies on a cycle. -/
theorem onCycle_iff {v : α} {c : List α} (hc : c ∈ found nodes edges) (hv : v ∈ c) :
    OnCycle edges v ↔ 1 < c.length ∨ ∃ u ∈ c, Edge edges u u := by
  have hnd : c.Nodup := (List.nodup_flatten.mp (found_nodup nodes edges)).1 c hc
  constructor
  · intro hcyc
    obtain ⟨w, hvw, hwv⟩ := Relation.TransGen.head'_iff.mp hcyc
    have hw : w ∈ c := (mem_found_iff_mutual nodes edges hc hv).mpr ⟨.single hvw, hwv⟩
    by_cases he : v = w
    · subst he
      exact .inr ⟨v, hv, hvw⟩
    · refine .inl ?_
      rcases c with _ | ⟨a, _ | ⟨b, c⟩⟩
      · simp at hv
      · simp only [List.mem_singleton] at hv hw
        exact absurd (hv.trans hw.symm) he
      · simp
  · rintro (hlt | ⟨u, hu, huu⟩)
    · obtain ⟨w, hw, hne⟩ : ∃ w ∈ c, v ≠ w := by
        rcases c with _ | ⟨a, _ | ⟨b, c⟩⟩
        · simp at hlt
        · simp at hlt
        · by_cases ha : v = a
          · refine ⟨b, by simp, ?_⟩
            rintro rfl
            simp [ha] at hnd
          · exact ⟨a, by simp, ha⟩
      obtain ⟨hvw, hwv⟩ := (mem_found_iff_mutual nodes edges hc hv).mp hw
      rcases Relation.ReflTransGen.cases_head hvw with he | ⟨x, hvx, hxw⟩
      · exact absurd he hne
      · exact Relation.TransGen.head' hvx (hxw.trans hwv)
    · obtain ⟨hvu, huv⟩ := (mem_found_iff_mutual nodes edges hc hv).mp hu
      exact Relation.TransGen.trans_right hvu (Relation.TransGen.head' huu huv)

/-! ## The partition -/

namespace Partition

variable {nodes edges} [Ord α]

open scoped Classical in
/-- The partition consists of the strongly connected components of the graph, and
all that it tells about them is so. -/
structure IsComponents (p : Partition α) (nodes : List α) (edges : List (α × α)) : Prop where
  nodup : p.components.flatten.Nodup
  /-- The nodes that occur are those that are mentioned. -/
  mem_iff : ∀ v, v ∈ p.components.flatten ↔ Mentioned nodes edges v
  inhabited : ∀ c ∈ p.components, c ≠ []
  /-- Two nodes are together if each reaches the other. -/
  together_iff : ∀ u v, Mentioned nodes edges u → Mentioned nodes edges v →
    ((∃ c ∈ p.components, u ∈ c ∧ v ∈ c) ↔ Mutual edges u v)
  /-- That is what is told of two nodes. -/
  sameComponent_iff : ∀ u v, p.sameComponent u v = true ↔ Mutual edges u v
  /-- The position told for a node is that of its component. -/
  componentOf_iff : ∀ v i, p.componentOf[v]? = some i ↔
    ∃ c : List α, p.components[i]? = some c ∧ v ∈ c
  /-- The node told to stand for a node is the least member of its component. -/
  leastOf_iff : ∀ v r, p.leastOf[v]? = some r ↔
    ∃ c ∈ p.components, v ∈ c ∧ r ∈ c ∧ ∀ w ∈ c, (compare r w).isLE
  /-- The nodes told to be on a cycle are on one. -/
  cyclic_iff : ∀ v, v ∈ p.cyclic ↔ OnCycle edges v
  /-- The components that are counted are those on a cycle. -/
  count_cyclic : p.stats.cyclicComponents =
    (p.components.filter fun c => ∃ v ∈ c, OnCycle edges v).length
  /-- The nodes that are left out are all but one of each such component. -/
  sum_collapsed : p.stats.collapsed =
    ((p.components.filter fun c => ∃ v ∈ c, OnCycle edges v).map (·.length - 1)).sum

omit [DecidableEq α] [Hashable α] [Ord α] in
theorem Mutual.eq_of_not_mentioned {u v : α} (h : Mutual edges u v)
    (hn : ¬ Mentioned nodes edges u ∨ ¬ Mentioned nodes edges v) : u = v := by
  rcases Relation.ReflTransGen.cases_head h.1 with he | ⟨w, huw, -⟩
  · exact he
  rcases Relation.ReflTransGen.cases_head h.2 with he | ⟨x, hvx, -⟩
  · exact he.symm
  · rcases hn with hn | hn
    · exact absurd (.inr ⟨w, .inr huw⟩) hn
    · exact absurd (.inr ⟨x, .inr hvx⟩) hn

omit [Ord α] in
theorem sameComponent_found {p : Partition α}
    (hp : p.componentOf = (search nodes edges).componentOf) (u v : α) :
    p.sameComponent u v = true ↔ Mutual edges u v := by
  have hnone : ∀ w, (search nodes edges).componentOf[w]? = none → ¬ Mentioned nodes edges w := by
    intro w hw hm
    obtain ⟨c, hc, hwc⟩ := (mem_found nodes edges).mpr hm
    obtain ⟨i, hi⟩ := List.getElem?_of_mem hc
    rw [(componentOf_found nodes edges).mpr ⟨c, hi, hwc⟩] at hw
    simp at hw
  have hunmet : ¬ Mentioned nodes edges u ∨ ¬ Mentioned nodes edges v →
      (u = v ↔ Mutual edges u v) := by
    intro hn
    refine ⟨?_, fun hm => Mutual.eq_of_not_mentioned hm hn⟩
    rintro rfl
    exact ⟨.refl, .refl⟩
  rw [sameComponent, hp]
  rcases hu : (search nodes edges).componentOf[u]? with _ | i
  · simpa using hunmet (.inl (hnone u hu))
  rcases hv : (search nodes edges).componentOf[v]? with _ | j
  · simpa using hunmet (.inr (hnone v hv))
  obtain ⟨c, hc, huc⟩ := (componentOf_found nodes edges).mp hu
  obtain ⟨d, hd, hvd⟩ := (componentOf_found nodes edges).mp hv
  rw [← mem_found_iff_mutual nodes edges (List.mem_of_getElem? hc) huc]
  simp only [decide_eq_true_eq]
  constructor
  · rintro rfl
    rw [hc, Option.some.injEq] at hd
    exact hd ▸ hvd
  · intro hvc
    have hvi := (componentOf_found nodes edges).mpr ⟨c, hc, hvc⟩
    rw [hvi, Option.some.injEq] at hv
    exact hv

theorem leastOf_found [Std.TransOrd α] [Std.LawfulEqOrd α] (v r : α) :
    (ofEdges nodes edges).leastOf[v]? = some r ↔
      ∃ c ∈ found nodes edges, v ∈ c ∧ r ∈ c ∧ ∀ w ∈ c, (compare r w).isLE := by
  have hl : (ofEdges nodes edges).leastOf[v]? =
      ((found nodes edges).find? (v ∈ ·)).bind least? := by
    refine (getElem?_fold_components least? (found nodes edges) ∅ v
      (found_nodup nodes edges)).trans ?_
    simp
  rw [hl, Option.bind_eq_some_iff]
  constructor
  · rintro ⟨c, hc, hr⟩
    have hv := List.find?_some hc
    obtain ⟨hrc, hle⟩ := least?_spec hr
    exact ⟨c, List.mem_of_find?_eq_some hc, by simpa using hv, hrc, hle⟩
  · rintro ⟨c, hc, hv, hrc, hle⟩
    have hfind : (found nodes edges).find? (v ∈ ·) = some c := by
      rcases hf : (found nodes edges).find? (v ∈ ·) with _ | d
      · exact absurd (List.find?_eq_none.mp hf c hc) (by simp [hv])
      · have hvd := List.find?_some hf
        rw [hf, found_unique nodes edges hc hv (List.mem_of_find?_eq_some hf) (by simpa using hvd)]
    refine ⟨c, hfind, ?_⟩
    rcases hl : least? c with _ | r'
    · rcases c with _ | ⟨x, xs⟩
      · simp at hv
      · simp [least?] at hl
    · obtain ⟨hrc', hle'⟩ := least?_spec hl
      have heq : compare r r' = .eq :=
        Std.OrientedCmp.isLE_antisymm (hle r' hrc') (hle' r hrc)
      rw [Std.LawfulEqOrd.eq_of_compare heq]

/-- A node and the one that stands for it reach each other. -/
theorem representative_mutual [Std.TransOrd α] [Std.LawfulEqOrd α] (v : α) :
    Mutual edges v ((ofEdges nodes edges).representative v) := by
  rw [representative, Std.HashMap.getD_eq_getD_getElem?]
  cases hr : (ofEdges nodes edges).leastOf[v]? with
  | none => exact ⟨.refl, .refl⟩
  | some r =>
    obtain ⟨c, hc, hv, hrc, -⟩ := (leastOf_found v r).mp hr
    exact (mem_found_iff_mutual nodes edges hc hv).mp hrc

/-- The node that stands for another stands for itself. -/
theorem representative_idem [Std.TransOrd α] [Std.LawfulEqOrd α] (v : α) :
    (ofEdges nodes edges).representative ((ofEdges nodes edges).representative v) =
      (ofEdges nodes edges).representative v := by
  rw [representative.eq_def _ v, Std.HashMap.getD_eq_getD_getElem?]
  cases hr : (ofEdges nodes edges).leastOf[v]? with
  | none => rw [Option.getD_none, representative, Std.HashMap.getD_eq_getD_getElem?, hr]; rfl
  | some r =>
    obtain ⟨c, hc, -, hrc, hle⟩ := (leastOf_found v r).mp hr
    have hself := (leastOf_found r r).mpr ⟨c, hc, hrc, hrc, hle⟩
    rw [Option.getD_some, representative, Std.HashMap.getD_eq_getD_getElem?, hself]
    rfl

theorem cyclic_found (v : α) : v ∈ (ofEdges nodes edges).cyclic ↔ OnCycle edges v := by
  have hm := mem_foldl_insertMany ((found nodes edges).filter fun c => 1 < c.length ||
    c.any (Std.HashSet.ofList ((edges.filter fun e => e.1 = e.2).map (·.1))).contains) ∅ v
  refine hm.trans ?_
  have hloop : ∀ u, u ∈ Std.HashSet.ofList ((edges.filter fun e => e.1 = e.2).map (·.1)) ↔
      Edge edges u u := by
    intro u
    simp
  simp only [Std.HashSet.not_mem_empty, false_or, List.mem_filter, Bool.or_eq_true,
    decide_eq_true_eq, List.any_eq_true, Std.HashSet.contains_iff_mem, hloop]
  constructor
  · rintro ⟨c, ⟨hc, hcyc⟩, hv⟩
    exact (onCycle_iff nodes edges hc hv).mpr hcyc
  · intro hcyc
    obtain ⟨w, hvw, -⟩ := Relation.TransGen.head'_iff.mp hcyc
    obtain ⟨c, hc, hv⟩ := (mem_found nodes edges).mpr (.inr ⟨w, .inr hvw⟩)
    exact ⟨c, ⟨hc, (onCycle_iff nodes edges hc hv).mp hcyc⟩, hv⟩

open scoped Classical in
theorem isCyclic_found :
    (ofEdges nodes edges).isCyclic = fun c : List α => decide (∃ v ∈ c, OnCycle edges v) := by
  funext c
  rw [Bool.eq_iff_iff, isCyclic, List.any_eq_true, decide_eq_true_eq]
  simp only [Std.HashSet.contains_iff_mem, cyclic_found]

/-- The partition of a graph consists of its strongly connected components. -/
theorem ofEdges_isComponents [Std.TransOrd α] [Std.LawfulEqOrd α] (nodes : List α)
    (edges : List (α × α)) : (ofEdges nodes edges).IsComponents nodes edges where
  nodup := found_nodup nodes edges
  mem_iff v := by
    rw [List.mem_flatten, ← mem_found]
    rfl
  inhabited c hc := by
    have hf : c ∈ found nodes edges := hc
    exact (search_spec nodes edges).1.inhabited c (by simpa [found] using hf)
  together_iff u v hu _ := by
    constructor
    · rintro ⟨c, hc, huc, hvc⟩
      exact (mem_found_iff_mutual nodes edges hc huc).mp hvc
    · intro hm
      obtain ⟨c, hc, huc⟩ := (mem_found nodes edges).mpr hu
      exact ⟨c, hc, huc, (mem_found_iff_mutual nodes edges hc huc).mpr hm⟩
  sameComponent_iff := sameComponent_found rfl
  componentOf_iff v i := componentOf_found nodes edges
  leastOf_iff := leastOf_found
  cyclic_iff := cyclic_found
  count_cyclic := by rw [stats, isCyclic_found]
  sum_collapsed := by rw [stats, isCyclic_found, List.sum_eq_foldl]

/-- Two nodes on a cycle, one that only an edge mentions, and one alone. -/
theorem ofEdges_isComponents_nat : Std.TransOrd Nat ∧ Std.LawfulEqOrd Nat ∧
    (ofEdges [4, 2] [(2, 7), (7, 2), (7, 9), (2, 7)]).IsComponents [4, 2]
      [(2, 7), (7, 2), (7, 9), (2, 7)] :=
  ⟨inferInstance, inferInstance, ofEdges_isComponents _ _⟩

/-! ## The order of the components -/

/-- What a node reaches lies in its component or in an earlier one. -/
theorem componentOf_of_reaches (nodes : List α) {u v : α} (hu : Mentioned nodes edges u)
    (hr : Relation.ReflTransGen (Edge edges) u v) :
    ∃ i j, (ofEdges nodes edges).componentOf[u]? = some i ∧
      (ofEdges nodes edges).componentOf[v]? = some j ∧ j ≤ i := by
  obtain ⟨c, hc, huc⟩ := (mem_found nodes edges).mpr hu
  obtain ⟨i, hi⟩ := List.getElem?_of_mem hc
  have hci : (search nodes edges).components[i]? = some c := by simpa [found] using hi
  obtain ⟨j, hj, d, hd, hvd⟩ :=
    (search_spec nodes edges).1.toSettled.reaches (reaches_iff.mpr hr) hci huc
  exact ⟨i, j, (componentOf_found nodes edges).mpr ⟨c, hi, huc⟩,
    (componentOf_found nodes edges).mpr ⟨d, by simpa [found] using hd, hvd⟩, hj⟩

/-- The components come sinks first: both ends of an edge have a position, and where no
component holds both, the edge leads to an earlier one. -/
theorem ofEdges_sinksFirst (nodes : List α) (edges : List (α × α)) {u v : α}
    (he : Edge edges u v) : ∃ i j, (ofEdges nodes edges).componentOf[u]? = some i ∧
      (ofEdges nodes edges).componentOf[v]? = some j ∧
      ((∀ c ∈ (ofEdges nodes edges).components, u ∈ c → v ∉ c) → j < i) := by
  obtain ⟨i, j, hi, hj, hle⟩ :=
    componentOf_of_reaches nodes (.inr ⟨v, .inr he⟩) (.single he)
  refine ⟨i, j, hi, hj, fun hapart => Nat.lt_of_le_of_ne hle ?_⟩
  rintro rfl
  -- At one position there is one component.
  obtain ⟨c, hc, hu⟩ := (componentOf_found nodes edges).mp hi
  obtain ⟨d, hd, hv⟩ := (componentOf_found nodes edges).mp hj
  rw [hc, Option.some.injEq] at hd
  exact hapart c (List.mem_of_getElem? hc) hu (hd ▸ hv)

/-- The edge that leaves a cycle leads to a component that comes before it. -/
theorem ofEdges_sinksFirst_leaving :
    let edges := [(2, 7), (7, 2), (7, 9), (2, 7)]
    Edge edges 7 9 ∧ (∀ c ∈ (ofEdges [4, 2] edges).components, 7 ∈ c → 9 ∉ c) ∧
      ∃ i j, (ofEdges [4, 2] edges).componentOf[7]? = some i ∧
        (ofEdges [4, 2] edges).componentOf[9]? = some j ∧ j < i := by
  intro edges
  have he : Edge edges 7 9 := by decide
  have hapart : ∀ c ∈ (ofEdges [4, 2] edges).components, 7 ∈ c → 9 ∉ c := by
    intro c hc h₇ h₉
    -- No edge leaves the second node, so it does not reach the first.
    have hback := ((mem_found_iff_mutual [4, 2] edges hc h₇).mp h₉).2
    rcases Relation.ReflTransGen.cases_head hback with heq | ⟨w, hw, -⟩
    · cases heq
    · simp [edges, Edge] at hw
  obtain ⟨i, j, hi, hj, hlt⟩ := ofEdges_sinksFirst [4, 2] edges he
  exact ⟨he, hapart, i, j, hi, hj, hlt hapart⟩

end Partition

end PmemPaths.Graph
