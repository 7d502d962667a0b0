import PmemPaths.Execution.State
import PmemPaths.Proofs.Execution.TreeShape
import PmemPaths.Proofs.Outcome

/-!
# States and their leaves

A *population* is the states of a program that are live together with their process
tree.  It starts with one state at the root, and from then on states fork, leave the tree
for good, and change in ways that do not concern the tree.

The tree does not know the states, and a state only knows the number of its leaf.  Still
the two never come apart (`Population.Run.tree_agrees`): the leaves are those of the live
states, every other node leads to one, no number is given out twice, and so a fork always
finds the leaf it is to split.
-/

namespace PmemPaths.Execution

open ProcessTree (root)

namespace State

variable {s s' child : State} {id n : Nat} {tree tree' : ProcessTree}

theorem branch_run (hdepth : s.depth < maxDepth) (id : Nat) :
    s.branch id = .ok ({ s with depth := s.depth + 1 },
      { s with depth := s.depth + 1, id, node := none, coveredNew := false }) := by
  rw [branch, if_neg (by omega)]
  rfl

theorem branch_overflow (hdepth : maxDepth ≤ s.depth) (id : Nat) :
    s.branch id = .error .overflow := by
  rw [branch, if_pos hdepth]
  rfl

/-- A fork of a state at a node, which splits the node. -/
theorem forkInto_eq (hn : s.node = some n) (hdepth : s.depth < maxDepth) :
    s.forkInto id tree = (tree.attach n s.id id).map fun (t, l, r) =>
      ({ s with depth := s.depth + 1, node := some l },
        { s with depth := s.depth + 1, id, node := some r, coveredNew := false }, t) := by
  rw [forkInto, branch_run hdepth]
  simp only [bind, Except.bind, hn]
  cases tree.attach n s.id id with
  | error e => rfl
  | ok result => rfl

theorem forkInto_overflow (hdepth : maxDepth ≤ s.depth) :
    s.forkInto id tree = .error .overflow := by
  rw [forkInto, branch_overflow hdepth]
  rfl

/-- What a fork does to the leaves of the two states. -/
theorem forkInto_run (hn : s.node = some n) (h : s.forkInto id tree = .ok (s', child, tree')) :
    ∃ l r, tree.attach n s.id id = .ok (tree', l, r) ∧ s'.id = s.id ∧ s'.node = some l ∧
      child.id = id ∧ child.node = some r := by
  obtain hdepth | hdepth := Nat.lt_or_ge s.depth maxDepth
  · rw [forkInto_eq hn hdepth] at h
    cases hattach : tree.attach n s.id id with
    | error e =>
      rw [hattach] at h
      cases h
    | ok result =>
      rw [hattach] at h
      cases h
      exact ⟨_, _, rfl, rfl, rfl, rfl, rfl⟩
  · rw [forkInto_overflow hdepth] at h
    cases h

/-- A fork goes through where the leaf can be split, unless the state is too deep. -/
theorem forkInto_total (hn : s.node = some n)
    (hattach : ∃ result, tree.attach n s.id id = .ok result) :
    (∃ result, s.forkInto id tree = .ok result) ∨
      maxDepth ≤ s.depth ∧ s.forkInto id tree = .error .overflow := by
  obtain hdepth | hdepth := Nat.lt_or_ge s.depth maxDepth
  · obtain ⟨result, hattach⟩ := hattach
    rw [forkInto_eq hn hdepth, hattach]
    exact .inl ⟨_, rfl⟩
  · exact .inr ⟨hdepth, forkInto_overflow hdepth⟩

end State

/-- The live states of a program and their process tree. -/
structure Population where
  /-- The tree. -/
  tree : ProcessTree
  /-- The states. -/
  live : List State

namespace Population

variable {p p' : Population} {given new : List Nat} {before after : List State}
  {s s' child : State} {n id : Nat} {tree' : ProcessTree}

/-- What can happen to a population, with the numbers of nodes that are given out, the
latest first. -/
inductive Step : Population → List Nat → Population → Prop
  /-- A live state forks, and the new one is live too. -/
  | fork {p : Population} {before after : List State} {s s' child : State} {id : Nat}
      {tree' : ProcessTree} : p.live = before ++ s :: after →
      s.forkInto id p.tree = .ok (s', child, tree') →
      Step p (child.node.toList ++ s'.node.toList) ⟨tree', before ++ s' :: child :: after⟩
  /-- The leaf of a live state is removed, which then is live no more. -/
  | leave {p : Population} {before after : List State} {s : State} :
      p.live = before ++ s :: after → Step p [] ⟨(s.leaveTree p.tree).2, before ++ after⟩
  /-- A live state changes in any way that does not concern the tree. -/
  | change {p : Population} {before after : List State} {s s' : State} :
      p.live = before ++ s :: after → s'.id = s.id → s'.node = s.node →
      Step p [] ⟨p.tree, before ++ s' :: after⟩

/-- The populations that come from one state at the root, with the numbers of nodes that
were given out, the latest first. -/
inductive Run : List Nat → Population → Prop
  | start (s : State) : Run [root] ⟨.ofState s.id, [{ s with node := some root }]⟩
  | step {given new : List Nat} {p p' : Population} :
      Run given p → Step p new p' → Run (new ++ given) p'

/-- The tree and the live states agree. -/
structure Agrees (given : List Nat) (p : Population) : Prop where
  /-- The leaves are those of the live states, each at the node that the state remembers. -/
  leaves : (p.tree.leaves.map fun (n, i) => (some n, i)).Perm (p.live.map fun s => (s.node, s.id))
  /-- No two live states are at the same node. -/
  nodes_nodup : (p.live.map (·.node)).Nodup
  /-- A node is a leaf with a state, or has none and has a child whose parent it is. -/
  node : ∀ n x, p.tree.node? n = some x →
    (x.isLeaf = true ∧ ∃ i, x.state = some i) ∨
    (x.state = none ∧ ∃ c y, x.HasChild c ∧ p.tree.node? c = some y ∧ y.parent = some n)
  /-- The parent of a node is there, and has the node as a child. -/
  parent : ∀ n x, p.tree.node? n = some x → n ≠ root →
    ∃ m y, x.parent = some m ∧ p.tree.node? m = some y ∧ y.HasChild n
  /-- No number of a node is given out twice. -/
  given_nodup : given.Nodup
  /-- The node of a live state can be split. -/
  attaches : ∀ s ∈ p.live, ∀ id, ∃ n result,
    s.node = some n ∧ p.tree.attach n s.id id = .ok result
  /-- A live state can fork, unless it is too deep. -/
  forks : ∀ s ∈ p.live, ∀ id, (∃ result, s.forkInto id p.tree = .ok result) ∨
    State.maxDepth ≤ s.depth ∧ s.forkInto id p.tree = .error .overflow

/-! ## What each step keeps -/

/-- The tree is in shape, and its leaves hold the live states. -/
structure Matched (given : List Nat) (p : Population) : Prop where
  linked : p.tree.Linked
  settled : p.tree.Settled
  nodes_nodup : (p.live.map (·.node)).Nodup
  /-- Every live state has a node. -/
  placed : ∀ s ∈ p.live, ∃ n, s.node = some n
  /-- A node holds a state if a live state is there. -/
  holds_iff : ∀ n i, p.tree.Holds n i ↔ ∃ s ∈ p.live, s.node = some n ∧ s.id = i
  given_nodup : given.Nodup
  given_lt : ∀ n ∈ given, n < p.tree.nodes.size

theorem mem_live (hlive : p.live = before ++ s :: after) {u : State} (hu : u ∈ before ++ after) :
    u ∈ p.live := by
  rw [hlive, List.perm_middle.mem_iff]
  exact List.mem_cons_of_mem s hu

namespace Matched

/-- The other states are at nodes of their own. -/
theorem others_nodup (h : Matched given p) (hlive : p.live = before ++ s :: after) :
    (∀ u ∈ before ++ after, u.node ≠ s.node) ∧ ((before ++ after).map (·.node)).Nodup := by
  have hnodup := h.nodes_nodup
  rw [hlive, (List.perm_middle.map _).nodup_iff, List.map_cons, List.nodup_cons] at hnodup
  refine ⟨?_, hnodup.2⟩
  intro u hu he
  exact hnodup.1 (he ▸ List.mem_map_of_mem hu)

/-- The node of a live state is a leaf that holds it. -/
theorem holds (h : Matched given p) (hlive : p.live = before ++ s :: after)
    (hn : s.node = some n) : p.tree.Holds n s.id :=
  (h.holds_iff n s.id).mpr ⟨s, hlive ▸ by simp, hn, rfl⟩

/-- What the other nodes hold are the other states. -/
theorem others (h : Matched given p) (hlive : p.live = before ++ s :: after)
    (hn : s.node = some n) (m i : Nat) :
    m ≠ n ∧ p.tree.Holds m i ↔ ∃ u ∈ before ++ after, u.node = some m ∧ u.id = i := by
  constructor
  · rintro ⟨hne, hm⟩
    obtain ⟨u, hu, hum, hui⟩ := (h.holds_iff m i).mp hm
    refine ⟨u, ?_, hum, hui⟩
    rw [hlive, List.perm_middle.mem_iff, List.mem_cons] at hu
    refine hu.resolve_left ?_
    rintro rfl
    rw [hn, Option.some.injEq] at hum
    exact hne hum.symm
  · rintro ⟨u, hu, hum, hui⟩
    refine ⟨?_, (h.holds_iff m i).mpr ⟨u, mem_live hlive hu, hum, hui⟩⟩
    rintro rfl
    exact (h.others_nodup hlive).1 u hu (hum.trans hn.symm)

theorem fork (h : Matched given p) (hlive : p.live = before ++ s :: after)
    (hfork : s.forkInto id p.tree = .ok (s', child, tree')) :
    Matched (child.node.toList ++ s'.node.toList ++ given)
      ⟨tree', before ++ s' :: child :: after⟩ := by
  obtain ⟨n, hn⟩ := h.placed s (hlive ▸ by simp)
  have hheld := h.holds hlive hn
  obtain ⟨x, hx, hi⟩ := hheld
  have hleaf := h.linked.isLeaf hx hi
  obtain ⟨l, r, hattach, hs', hl, hchild, hr⟩ := State.forkInto_run hn hfork
  obtain ⟨t, hrun, hsplit⟩ := ProcessTree.attach_run hx hleaf s.id id
  rw [hrun] at hattach
  cases hattach
  have hmem : ∀ u, u ∈ before ++ s' :: child :: after ↔
      u = s' ∨ u = child ∨ u ∈ before ++ after := by
    intro u
    simp only [List.mem_append, List.mem_cons]
    grind
  refine ⟨hsplit.linked h.linked hx hleaf, hsplit.settled h.settled, ?nodes, ?placed, ?holds,
    ?nodup, ?lt⟩
  case nodes =>
    -- The two new leaves are not among the old nodes.
    have hnew : ∀ u ∈ before ++ after, ∀ m, u.node = some m → m < p.tree.nodes.size := by
      intro u hu m hum
      obtain ⟨-, y, hy, -⟩ := (h.others hlive hn m u.id).mpr ⟨u, hu, hum, rfl⟩
      exact ProcessTree.node?_lt hy
    have hperm : (before ++ s' :: child :: after).Perm (s' :: child :: (before ++ after)) :=
      List.perm_middle.trans (.cons s' List.perm_middle)
    rw [(hperm.map _).nodup_iff, List.map_cons, List.map_cons, List.nodup_cons, List.nodup_cons,
      hl, hr]
    refine ⟨?_, ?_, (h.others_nodup hlive).2⟩
    · rw [List.mem_cons, not_or, Option.some.injEq]
      refine ⟨by omega, ?_⟩
      intro hin
      obtain ⟨u, hu, hum⟩ := List.mem_map.mp hin
      exact absurd (hnew u hu _ hum) (by omega)
    · intro hin
      obtain ⟨u, hu, hum⟩ := List.mem_map.mp hin
      exact absurd (hnew u hu _ hum) (by omega)
  case placed =>
    intro u hu
    obtain rfl | rfl | hu := (hmem u).mp hu
    · exact ⟨_, hl⟩
    · exact ⟨_, hr⟩
    · exact h.placed u (mem_live hlive hu)
  case holds =>
    intro m i
    rw [hsplit.holds_iff, h.others hlive hn]
    constructor
    · rintro (⟨rfl, rfl⟩ | ⟨rfl, rfl⟩ | ⟨u, hu, hum, hui⟩)
      · exact ⟨s', (hmem s').mpr (.inl rfl), hl, hs'⟩
      · exact ⟨child, (hmem child).mpr (.inr (.inl rfl)), hr, hchild⟩
      · exact ⟨u, (hmem u).mpr (.inr (.inr hu)), hum, hui⟩
    · rintro ⟨u, hu, hum, hui⟩
      obtain rfl | rfl | hu := (hmem u).mp hu
      · rw [hl, Option.some.injEq] at hum
        exact .inl ⟨hum.symm, hui.symm.trans hs'⟩
      · rw [hr, Option.some.injEq] at hum
        exact .inr (.inl ⟨hum.symm, hui.symm.trans hchild⟩)
      · exact .inr (.inr ⟨u, hu, hum, hui⟩)
  case nodup =>
    -- Both numbers are above all that were given out.
    rw [hl, hr]
    simp only [Option.toList_some, List.cons_append, List.nil_append, List.nodup_cons,
      List.mem_cons, not_or]
    refine ⟨⟨by omega, ?_⟩, ?_, h.given_nodup⟩
    · intro hgiven
      have hlt := h.given_lt _ hgiven
      omega
    · intro hgiven
      have hlt := h.given_lt _ hgiven
      omega
  case lt =>
    intro m hm
    rw [hl, hr] at hm
    simp only [Option.toList_some, List.mem_append, List.mem_singleton] at hm
    show m < tree'.nodes.size
    rw [hsplit.size]
    obtain (rfl | rfl) | hm := hm
    · omega
    · omega
    · have hlt := h.given_lt m hm
      omega

theorem leave (h : Matched given p) (hlive : p.live = before ++ s :: after) :
    Matched given ⟨(s.leaveTree p.tree).2, before ++ after⟩ := by
  obtain ⟨n, hn⟩ := h.placed s (hlive ▸ by simp)
  have hremoved := ProcessTree.remove_keeps h.linked h.settled (h.holds hlive hn)
  have htree : (s.leaveTree p.tree).2 = p.tree.remove n := by
    rw [State.leaveTree, hn]
    rfl
  rw [htree]
  refine ⟨hremoved.linked, hremoved.settled, (h.others_nodup hlive).2,
    fun u hu => h.placed u (mem_live hlive hu), ?holds, h.given_nodup, ?lt⟩
  case holds =>
    intro m i
    rw [hremoved.holds_iff, h.others hlive hn]
  case lt =>
    intro m hm
    show m < (p.tree.remove n).nodes.size
    rw [hremoved.size]
    exact h.given_lt m hm

theorem change (h : Matched given p) (hlive : p.live = before ++ s :: after) (hid : s'.id = s.id)
    (hnode : s'.node = s.node) : Matched given ⟨p.tree, before ++ s' :: after⟩ := by
  have hplaced := h.placed
  have hholds := h.holds_iff
  rw [hlive] at hplaced hholds
  refine ⟨h.linked, h.settled, ?nodes, ?placed, ?holds, h.given_nodup, h.given_lt⟩
  case nodes =>
    have hnodup := h.nodes_nodup
    rw [hlive] at hnodup
    simpa only [List.map_append, List.map_cons, hnode] using hnodup
  case placed =>
    simpa only [List.forall_mem_append, List.forall_mem_cons, hnode] using hplaced
  case holds =>
    intro m i
    rw [hholds]
    simp only [List.mem_append, List.mem_cons, or_and_right, exists_or, exists_eq_left, hid, hnode]

theorem start (s : State) :
    Matched [root] ⟨.ofState s.id, [{ s with node := some root }]⟩ := by
  refine ⟨ProcessTree.linked_ofState, ProcessTree.settled_ofState, List.nodup_singleton _, ?placed,
    ?holds, List.nodup_singleton _, ?lt⟩
  case placed =>
    intro u hu
    rw [List.mem_singleton.mp hu]
    exact ⟨root, rfl⟩
  case holds =>
    intro n i
    rw [ProcessTree.holds_ofState]
    simp [eq_comm]
  case lt =>
    intro n hn
    rw [List.mem_singleton.mp hn]
    exact Nat.zero_lt_one

/-! ## What a matched population looks like -/

theorem leaves_perm (h : Matched given p) :
    (p.tree.leaves.map fun (n, i) => (some n, i)).Perm (p.live.map fun s => (s.node, s.id)) := by
  have hinjective : Function.Injective fun (n, i) => ((some n, i) : Option Nat × Nat) := by
    rintro ⟨n, i⟩ ⟨m, j⟩ he
    cases he
    rfl
  rw [List.perm_ext_iff_of_nodup (ProcessTree.nodup_leaves.map hinjective)
    (.of_map Prod.fst (by simpa only [List.map_map, Function.comp_def] using h.nodes_nodup))]
  rintro ⟨n, i⟩
  simp only [List.mem_map, Prod.exists, Prod.mk.injEq]
  constructor
  · rintro ⟨m, j, hm, rfl, rfl⟩
    exact (h.holds_iff m j).mp (ProcessTree.mem_leaves.mp hm)
  · rintro ⟨s, hs, rfl, rfl⟩
    obtain ⟨m, hm⟩ := h.placed s hs
    exact ⟨m, s.id, ProcessTree.mem_leaves.mpr ((h.holds_iff m s.id).mpr ⟨s, hs, hm, rfl⟩),
      hm.symm, rfl⟩

theorem node (h : Matched given p) (n : Nat) (x : TreeNode) (hx : p.tree.node? n = some x) :
    (x.isLeaf = true ∧ ∃ i, x.state = some i) ∨
    (x.state = none ∧ ∃ c y, x.HasChild c ∧ p.tree.node? c = some y ∧ y.parent = some n) := by
  by_cases hleaf : x.isLeaf = true
  · exact .inl ⟨hleaf, Option.isSome_iff_exists.mp (h.settled n x hx hleaf)⟩
  · rw [TreeNode.isLeaf_iff] at hleaf
    push Not at hleaf
    obtain ⟨c, hc⟩ := hleaf
    obtain ⟨y, hy, hyn⟩ := h.linked.child n x c hx hc
    exact .inr ⟨h.linked.inner n x c hx hc, c, y, hc, hy, hyn⟩

theorem parent (h : Matched given p) (n : Nat) (x : TreeNode) (hx : p.tree.node? n = some x)
    (hn : n ≠ root) : ∃ m y, x.parent = some m ∧ p.tree.node? m = some y ∧ y.HasChild n := by
  cases hm : x.parent with
  | none => exact absurd ((h.linked.parent_eq_none_iff n x hx).mp hm) hn
  | some m =>
    obtain ⟨-, y, hy, hyn⟩ := h.linked.parent n x m hx hm
    exact ⟨m, y, rfl, hy, hyn⟩

theorem attaches (h : Matched given p) (s : State) (hs : s ∈ p.live) (id : Nat) :
    ∃ n result, s.node = some n ∧ p.tree.attach n s.id id = .ok result := by
  obtain ⟨n, hn⟩ := h.placed s hs
  obtain ⟨x, hx, hi⟩ := (h.holds_iff n s.id).mpr ⟨s, hs, hn, rfl⟩
  obtain ⟨t, hrun, -⟩ := ProcessTree.attach_run hx (h.linked.isLeaf hx hi) s.id id
  exact ⟨n, _, hn, hrun⟩

theorem forks (h : Matched given p) (s : State) (hs : s ∈ p.live) (id : Nat) :
    (∃ result, s.forkInto id p.tree = .ok result) ∨
      State.maxDepth ≤ s.depth ∧ s.forkInto id p.tree = .error .overflow := by
  obtain ⟨n, result, hn, hrun⟩ := h.attaches s hs id
  exact State.forkInto_total hn ⟨result, hrun⟩

end Matched

/-- Each step keeps the leaves and the live states matched. -/
theorem Step.keeps (hstep : Step p new p') (h : Matched given p) : Matched (new ++ given) p' := by
  cases hstep with
  | fork hlive hfork => exact h.fork hlive hfork
  | leave hlive => exact h.leave hlive
  | change hlive hid hnode => exact h.change hlive hid hnode

/-- In every run the leaves and the live states are matched. -/
theorem Run.matched (h : Run given p) : Matched given p := by
  induction h with
  | start s => exact .start s
  | step _ hstep ih => exact hstep.keeps ih

/-- In every run the process tree and the live states agree. -/
theorem Run.tree_agrees (h : Run given p) : Agrees given p := by
  have hmatched := h.matched
  exact ⟨hmatched.leaves_perm, hmatched.nodes_nodup, hmatched.node, hmatched.parent,
    hmatched.given_nodup, hmatched.attaches, hmatched.forks⟩

/-- The state at the root forks and leaves, and its copy lives on below the root. -/
theorem Run.tree_agrees_copyLeft :
    ∃ p, Run [2, 1, 0] p ∧ p.tree.leaves = [(2, 8)] ∧ Agrees [2, 1, 0] p := by
  have hforked := Run.step (.start { id := 7, threads := ∅ })
    (@Step.fork _ [] [] _ _ _ 8 _ rfl rfl)
  have hrun := hforked.step (@Step.leave _ [] _ _ rfl)
  exact ⟨_, hrun, by decide, hrun.tree_agrees⟩

end Population

end PmemPaths.Execution
