import Mathlib.Data.List.Nodup
import PmemPaths.Execution.ProcessTree

/-!
# The shape of process trees

What attaching and removing do to a process tree.  A tree is *linked* when its links
agree: what a node names as its parent names it as a child, and the other way round
(`ProcessTree.Linked`).  It is *settled* when every leaf holds a state.

Attaching keeps both.  Removing a leaf does too, although on the way it does not: when
the last child of a node goes, the node is a leaf without a state until it goes itself.
So the walk up is followed with one leaf excepted, the one that is to go next
(`SettledBut`), and the walk ends where no leaf is excepted (`removeUp_keeps`).  A parent
has a smaller number than its children, hence the walk is never cut short.
-/

namespace PmemPaths.Execution

namespace TreeNode

variable {x : TreeNode} {c d : Nat}

/-- The node has a child of that number. -/
def HasChild (x : TreeNode) (c : Nat) : Prop := x.left = some c ∨ x.right = some c

theorem isLeaf_iff : x.isLeaf = true ↔ ∀ c, ¬ x.HasChild c := by
  rw [isLeaf, Bool.and_eq_true, Option.isNone_iff_eq_none, Option.isNone_iff_eq_none,
    Option.eq_none_iff_forall_ne_some, Option.eq_none_iff_forall_ne_some, ← forall_and]
  simp only [HasChild, not_or, ne_eq]

theorem hasChild_dropChild : (x.dropChild d).HasChild c ↔ x.HasChild c ∧ c ≠ d := by
  simp only [HasChild, dropChild]
  grind

end TreeNode

namespace ProcessTree

variable {t : ProcessTree} {n m p k : Nat} {x y : TreeNode}

/-- A node holds a state. -/
def Holds (t : ProcessTree) (n state : Nat) : Prop :=
  ∃ x, t.node? n = some x ∧ x.state = some state

/-- The links of a tree agree, and only leaves hold states. -/
structure Linked (t : ProcessTree) : Prop where
  /-- The root and no other node has no parent. -/
  parent_eq_none_iff : ∀ n x, t.node? n = some x → (x.parent = none ↔ n = root)
  /-- A parent is an older node and has the child. -/
  parent : ∀ n x p, t.node? n = some x → x.parent = some p →
    p < n ∧ ∃ y, t.node? p = some y ∧ y.HasChild n
  /-- A child has the parent. -/
  child : ∀ n x c, t.node? n = some x → x.HasChild c → ∃ y, t.node? c = some y ∧ y.parent = some n
  /-- A node with a child holds no state. -/
  inner : ∀ n x c, t.node? n = some x → x.HasChild c → x.state = none

/-- Every leaf but one holds a state. -/
def SettledBut (t : ProcessTree) (n : Nat) : Prop :=
  ∀ m y, t.node? m = some y → y.isLeaf = true → m ≠ n → y.state.isSome = true

/-- Every leaf holds a state. -/
def Settled (t : ProcessTree) : Prop :=
  ∀ m y, t.node? m = some y → y.isLeaf = true → y.state.isSome = true

theorem node?_lt (h : t.node? n = some x) : n < t.nodes.size := by
  obtain ⟨y, hy, -⟩ := Option.bind_eq_some_iff.mp h
  obtain ⟨hlt, -⟩ := Array.getElem?_eq_some_iff.mp hy
  exact hlt

/-- A node that holds a state is a leaf. -/
theorem Linked.isLeaf (h : t.Linked) {i : Nat} (hx : t.node? n = some x) (hi : x.state = some i) :
    x.isLeaf = true := by
  rw [TreeNode.isLeaf_iff]
  intro c hc
  rw [h.inner n x c hx hc] at hi
  cases hi

theorem mem_leaves {i : Nat} : (n, i) ∈ t.leaves ↔ t.Holds n i := by
  simp only [leaves, List.mem_filterMap, List.mem_range, Option.map_eq_some_iff,
    Option.bind_eq_some_iff, Prod.mk.injEq]
  constructor
  · rintro ⟨m, -, j, ⟨x, hx, hj⟩, rfl, rfl⟩
    exact ⟨x, hx, hj⟩
  · rintro ⟨x, hx, hi⟩
    exact ⟨n, node?_lt hx, i, ⟨x, hx, hi⟩, rfl, rfl⟩

theorem nodup_leaves : t.leaves.Nodup := by
  refine List.Nodup.filterMap ?_ List.nodup_range
  intro m n e hm hn
  simp only [Option.mem_def, Option.map_eq_some_iff] at hm hn
  obtain ⟨i, -, rfl⟩ := hm
  obtain ⟨j, -, hj⟩ := hn
  exact (Prod.mk.inj hj).1.symm

/-! ## The tree of one state -/

section OfState

variable {i j : Nat}

theorem node?_ofState :
    (ofState i).node? n = some x ↔ n = root ∧ x = { parent := none, state := some i } := by
  cases n with
  | zero => simp [node?, ofState, root, eq_comm]
  | succ n => simp [node?, ofState, root]

/-- The only node is the root and has no children. -/
theorem linked_ofState : (ofState i).Linked := by
  refine ⟨?root, ?parent, ?child, ?inner⟩
  case root =>
    intro n x hx
    obtain ⟨rfl, rfl⟩ := node?_ofState.mp hx
    exact iff_of_true rfl rfl
  case parent =>
    intro n x p hx hp
    obtain ⟨-, rfl⟩ := node?_ofState.mp hx
    cases hp
  case child =>
    intro n x c hx hc
    obtain ⟨-, rfl⟩ := node?_ofState.mp hx
    simp [TreeNode.HasChild] at hc
  case inner =>
    intro n x c hx hc
    obtain ⟨-, rfl⟩ := node?_ofState.mp hx
    simp [TreeNode.HasChild] at hc

theorem settled_ofState : (ofState i).Settled := by
  intro n x hx _
  obtain ⟨-, rfl⟩ := node?_ofState.mp hx
  rfl

theorem holds_ofState : (ofState i).Holds n j ↔ n = root ∧ j = i := by
  constructor
  · rintro ⟨x, hx, hj⟩
    obtain ⟨rfl, rfl⟩ := node?_ofState.mp hx
    exact ⟨rfl, (Option.some.inj hj).symm⟩
  · rintro ⟨rfl, rfl⟩
    exact ⟨_, node?_ofState.mpr ⟨rfl, rfl⟩, rfl⟩

end OfState

/-! ## Attaching -/

/-- A leaf was split in two: what is now at each number. -/
structure Split (t : ProcessTree) (n left right : Nat) (x : TreeNode) (t' : ProcessTree) :
    Prop where
  size : t'.nodes.size = t.nodes.size + 2
  node? : ∀ m, t'.node? m =
    if m = t.nodes.size then some { parent := some n, state := some left }
    else if m = t.nodes.size + 1 then some { parent := some n, state := some right }
    else if m = n then
      some { x with left := some t.nodes.size, right := some (t.nodes.size + 1), state := none }
    else t.node? m

/-- A leaf can be split. -/
theorem attach_run (hx : t.node? n = some x) (hleaf : x.isLeaf = true) (left right : Nat) :
    ∃ t', t.attach n left right = .ok (t', t.nodes.size, t.nodes.size + 1) ∧
      t.Split n left right x t' := by
  have hlt := node?_lt hx
  refine ⟨_, by simp only [attach, hx, hleaf, if_true]; rfl, by simp, ?_⟩
  intro m
  simp only [node?, Array.getElem?_push, Array.getElem?_setIfInBounds, Array.size_push,
    Array.size_setIfInBounds]
  grind

namespace Split

variable {t' : ProcessTree} {left right : Nat}

theorem node?_old (hs : t.Split n left right x t') (hy : t.node? m = some y) (hne : m ≠ n) :
    t'.node? m = some y := by
  have hlt := node?_lt hy
  rw [hs.node?, if_neg (by omega), if_neg (by omega), if_neg hne, hy]

theorem node?_split (hs : t.Split n left right x t') (hx : t.node? n = some x) :
    t'.node? n = some { x with
      left := some t.nodes.size, right := some (t.nodes.size + 1), state := none } := by
  have hlt := node?_lt hx
  rw [hs.node?, if_neg (by omega), if_neg (by omega), if_pos rfl]

theorem node?_left (hs : t.Split n left right x t') :
    t'.node? t.nodes.size = some { parent := some n, state := some left } := by
  rw [hs.node?, if_pos rfl]

theorem node?_right (hs : t.Split n left right x t') :
    t'.node? (t.nodes.size + 1) = some { parent := some n, state := some right } := by
  rw [hs.node?, if_neg (by omega), if_pos rfl]

/-- A node is one of the new leaves, the one that was split, or an old one. -/
theorem cases (hs : t.Split n left right x t') (hy : t'.node? m = some y) :
    (m = t.nodes.size ∧ y = { parent := some n, state := some left }) ∨
    (m = t.nodes.size + 1 ∧ y = { parent := some n, state := some right }) ∨
    (m = n ∧ y = { x with
      left := some t.nodes.size, right := some (t.nodes.size + 1), state := none }) ∨
    (m ≠ n ∧ t.node? m = some y) := by
  rw [hs.node?] at hy
  grind

/-- The new leaves name the node that was split as their parent, and it names them. -/
theorem linked (hs : t.Split n left right x t') (h : t.Linked) (hx : t.node? n = some x)
    (hleaf : x.isLeaf = true) : t'.Linked := by
  rw [TreeNode.isLeaf_iff] at hleaf
  have hlt := node?_lt hx
  refine ⟨?root, ?parent, ?child, ?inner⟩
  case root =>
    intro m y hy
    obtain ⟨rfl, rfl⟩ | ⟨rfl, rfl⟩ | ⟨rfl, rfl⟩ | ⟨-, hold⟩ := hs.cases hy
    · simp only [reduceCtorEq, false_iff, root]
      omega
    · simp [root]
    · exact h.parent_eq_none_iff m x hx
    · exact h.parent_eq_none_iff m y hold
  case parent =>
    -- A parent that was there before is not the leaf that was split, or has it as its child.
    have hbefore : ∀ m y p, t.node? m = some y → y.parent = some p →
        p < m ∧ ∃ z, t'.node? p = some z ∧ z.HasChild m := by
      intro m y p hy hp
      obtain ⟨hpm, z, hz, hzm⟩ := h.parent m y p hy hp
      refine ⟨hpm, z, hs.node?_old hz ?_, hzm⟩
      rintro rfl
      rw [hx, Option.some.injEq] at hz
      exact hleaf m (hz ▸ hzm)
    intro m y p hy hp
    obtain ⟨rfl, rfl⟩ | ⟨rfl, rfl⟩ | ⟨rfl, rfl⟩ | ⟨-, hold⟩ := hs.cases hy
    · cases hp
      exact ⟨hlt, _, hs.node?_split hx, .inl rfl⟩
    · cases hp
      exact ⟨by omega, _, hs.node?_split hx, .inr rfl⟩
    · exact hbefore m x p hx hp
    · exact hbefore m y p hold hp
  case child =>
    intro m y c hy hc
    obtain ⟨-, rfl⟩ | ⟨-, rfl⟩ | ⟨rfl, rfl⟩ | ⟨-, hold⟩ := hs.cases hy
    · simp [TreeNode.HasChild] at hc
    · simp [TreeNode.HasChild] at hc
    · obtain hl | hr := hc
      · cases hl
        exact ⟨_, hs.node?_left, rfl⟩
      · cases hr
        exact ⟨_, hs.node?_right, rfl⟩
    · obtain ⟨z, hz, hzm⟩ := h.child m y c hold hc
      by_cases hcn : c = n
      · subst hcn
        rw [hx, Option.some.injEq] at hz
        exact ⟨_, hs.node?_split hx, hz ▸ hzm⟩
      · exact ⟨z, hs.node?_old hz hcn, hzm⟩
  case inner =>
    intro m y c hy hc
    obtain ⟨-, rfl⟩ | ⟨-, rfl⟩ | ⟨rfl, rfl⟩ | ⟨-, hold⟩ := hs.cases hy
    · simp [TreeNode.HasChild] at hc
    · simp [TreeNode.HasChild] at hc
    · rfl
    · exact h.inner m y c hold hc

/-- The leaf that was split is none any more, and the new ones hold states. -/
theorem settled (hs : t.Split n left right x t') (h : t.Settled) : t'.Settled := by
  intro m y hy hleaf
  obtain ⟨-, rfl⟩ | ⟨-, rfl⟩ | ⟨-, rfl⟩ | ⟨-, hold⟩ := hs.cases hy
  · rfl
  · rfl
  · cases hleaf
  · exact h m y hold hleaf

/-- The two new leaves hold their states, and all others but the one that was split hold
what they held. -/
theorem holds_iff (hs : t.Split n left right x t') {i : Nat} :
    t'.Holds m i ↔ (m = t.nodes.size ∧ i = left) ∨ (m = t.nodes.size + 1 ∧ i = right) ∨
      (m ≠ n ∧ t.Holds m i) := by
  constructor
  · rintro ⟨y, hy, hi⟩
    obtain ⟨rfl, rfl⟩ | ⟨rfl, rfl⟩ | ⟨-, rfl⟩ | ⟨hne, hold⟩ := hs.cases hy
    · cases hi
      exact .inl ⟨rfl, rfl⟩
    · cases hi
      exact .inr (.inl ⟨rfl, rfl⟩)
    · cases hi
    · exact .inr (.inr ⟨hne, y, hold, hi⟩)
  · rintro (⟨rfl, rfl⟩ | ⟨rfl, rfl⟩ | ⟨hne, y, hy, hi⟩)
    · exact ⟨_, hs.node?_left, rfl⟩
    · exact ⟨_, hs.node?_right, rfl⟩
    · exact ⟨y, hs.node?_old hy hne, hi⟩

end Split

/-! ## Removing -/

theorem node?_erase :
    node? ⟨t.nodes.setIfInBounds n none⟩ m = if m = n then none else t.node? m := by
  simp only [node?, Array.getElem?_setIfInBounds]
  grind

theorem node?_modify {g : TreeNode → TreeNode} :
    node? ⟨t.nodes.modify p (·.map g)⟩ m = if m = p then (t.node? m).map g else t.node? m := by
  simp only [node?, Array.getElem?_modify]
  by_cases h : m = p
  · rw [if_pos h.symm, if_pos h]
    cases t.nodes[m]? with
    | none => rfl
    | some z => rfl
  · rw [if_neg (Ne.symm h), if_neg h]

/-- A leaf was taken out, and out of the children of its parent. -/
structure Cut (t : ProcessTree) (n : Nat) (t' : ProcessTree) : Prop where
  size : t'.nodes.size = t.nodes.size
  node? : ∀ m, t'.node? m = if m = n then none else (t.node? m).map (·.dropChild n)

/-- Only the parent of a node has it as a child. -/
theorem Linked.dropChild_eq (h : t.Linked) (hx : t.node? n = some x) (hm : x.parent ≠ some m) :
    (t.node? m).map (·.dropChild n) = t.node? m := by
  cases hy : t.node? m with
  | none => rfl
  | some y =>
    have hnot : ¬ y.HasChild n := by
      intro hc
      obtain ⟨z, hz, hzm⟩ := h.child m y n hy hc
      rw [hx, Option.some.injEq] at hz
      exact hm (hz ▸ hzm)
    rw [TreeNode.HasChild, not_or] at hnot
    rw [Option.map_some, TreeNode.dropChild, if_neg hnot.1, if_neg hnot.2]

/-- Removing a leaf takes it out and goes on at its parent. -/
theorem removeUp_leaf (h : t.Linked) (hx : t.node? n = some x) (hleaf : x.isLeaf = true) :
    ∃ t', t.Cut n t' ∧
      removeUp (k + 1) t n = x.parent.elim t' fun p => removeUp k t' p := by
  simp only [removeUp, hx, hleaf, if_true]
  cases hp : x.parent with
  | none =>
    refine ⟨⟨t.nodes.setIfInBounds n none⟩, ⟨Array.size_setIfInBounds, ?_⟩, rfl⟩
    intro m
    rw [node?_erase, h.dropChild_eq hx (by simp [hp])]
  | some p =>
    refine ⟨⟨(t.nodes.setIfInBounds n none).modify p (·.map (·.dropChild n))⟩,
      ⟨by rw [Array.size_modify, Array.size_setIfInBounds], ?_⟩, rfl⟩
    intro m
    rw [node?_modify (t := ⟨t.nodes.setIfInBounds n none⟩), node?_erase]
    by_cases hm : m = p
    · subst hm
      rw [if_pos rfl]
      split
      · rfl
      · rfl
    · rw [if_neg hm, h.dropChild_eq hx (by simp [hp, Ne.symm hm])]

namespace Cut

variable {t' : ProcessTree}

theorem node?_of_ne (hc : t.Cut n t') (hy : t.node? m = some y) (hne : m ≠ n) :
    t'.node? m = some (y.dropChild n) := by
  rw [hc.node?, if_neg hne, hy, Option.map_some]

theorem exists_old (hc : t.Cut n t') (hy : t'.node? m = some y) :
    m ≠ n ∧ ∃ z, t.node? m = some z ∧ y = z.dropChild n := by
  rw [hc.node?] at hy
  split at hy
  · cases hy
  · next hne =>
    obtain ⟨z, hz, rfl⟩ := Option.map_eq_some_iff.mp hy
    exact ⟨hne, z, hz, rfl⟩

theorem linked (hc : t.Cut n t') (h : t.Linked) (hx : t.node? n = some x)
    (hleaf : x.isLeaf = true) : t'.Linked := by
  rw [TreeNode.isLeaf_iff] at hleaf
  refine ⟨?root, ?parent, ?child, ?inner⟩
  case root =>
    intro m y hy
    obtain ⟨-, z, hz, rfl⟩ := hc.exists_old hy
    exact h.parent_eq_none_iff m z hz
  case parent =>
    intro m y p hy hp
    obtain ⟨hne, z, hz, rfl⟩ := hc.exists_old hy
    obtain ⟨hpm, w, hw, hwm⟩ := h.parent m z p hz hp
    have hpn : p ≠ n := by
      rintro rfl
      rw [hx, Option.some.injEq] at hw
      exact hleaf m (hw ▸ hwm)
    exact ⟨hpm, _, hc.node?_of_ne hw hpn, TreeNode.hasChild_dropChild.mpr ⟨hwm, hne⟩⟩
  case child =>
    intro m y c hy hyc
    obtain ⟨-, z, hz, rfl⟩ := hc.exists_old hy
    obtain ⟨hzc, hcn⟩ := TreeNode.hasChild_dropChild.mp hyc
    obtain ⟨w, hw, hwm⟩ := h.child m z c hz hzc
    exact ⟨_, hc.node?_of_ne hw hcn, hwm⟩
  case inner =>
    intro m y c hy hyc
    obtain ⟨-, z, hz, rfl⟩ := hc.exists_old hy
    exact h.inner m z c hz (TreeNode.hasChild_dropChild.mp hyc).1

theorem holds_iff (hc : t.Cut n t') {i : Nat} : t'.Holds m i ↔ m ≠ n ∧ t.Holds m i := by
  constructor
  · rintro ⟨y, hy, hi⟩
    obtain ⟨hne, z, hz, rfl⟩ := hc.exists_old hy
    exact ⟨hne, z, hz, hi⟩
  · rintro ⟨hne, z, hz, hi⟩
    exact ⟨_, hc.node?_of_ne hz hne, hi⟩

/-- Of the leaves that are left only the parent can be without a state. -/
theorem settled (hc : t.Cut n t') (h : t.Linked) (hsettled : t.SettledBut n)
    (hx : t.node? n = some x) (hy : t'.node? m = some y) (hleaf : y.isLeaf = true)
    (hm : x.parent ≠ some m) : y.state.isSome = true := by
  obtain ⟨hne, z, hz, rfl⟩ := hc.exists_old hy
  have hsame := h.dropChild_eq hx hm
  rw [hz, Option.map_some, Option.some.injEq] at hsame
  rw [hsame] at hleaf ⊢
  exact hsettled m z hz hleaf hne

end Cut

/-- What is left when a leaf was removed with the ancestors that only led to it. -/
structure Removed (t : ProcessTree) (n : Nat) (t' : ProcessTree) : Prop where
  linked : t'.Linked
  settled : t'.Settled
  size : t'.nodes.size = t.nodes.size
  /-- The leaf is gone, and all others hold what they held. -/
  holds_iff : ∀ m i, t'.Holds m i ↔ m ≠ n ∧ t.Holds m i

/-- The walk up takes out a leaf and the ancestors that are left without a child, by
induction on the steps it may take. -/
theorem removeUp_keeps (h : t.Linked) (hsettled : t.SettledBut n) (hx : t.node? n = some x)
    (hleaf : x.isLeaf = true) (hk : n < k) : t.Removed n (removeUp k t n) := by
  induction k generalizing t n x with
  | zero => omega
  | succ k ih =>
    obtain ⟨t', hcut, hrun⟩ := removeUp_leaf (k := k) h hx hleaf
    have hlinked := hcut.linked h hx hleaf
    rw [hrun]
    cases hp : x.parent with
    | none =>
      refine ⟨hlinked, ?_, hcut.size, fun m i => hcut.holds_iff⟩
      intro m y hy hyleaf
      exact hcut.settled h hsettled hx hy hyleaf (by simp [hp])
    | some p =>
      obtain ⟨hpn, z, hz, hzn⟩ := h.parent n x p hx hp
      have hz' := hcut.node?_of_ne hz (Nat.ne_of_lt hpn)
      have hsettled' : t'.SettledBut p := by
        intro m y hy hyleaf hm
        exact hcut.settled h hsettled hx hy hyleaf (by simp [hp, Ne.symm hm])
      rw [Option.elim_some]
      cases hzleaf : (z.dropChild n).isLeaf with
      | true =>
        have hrest := ih hlinked hsettled' hz' hzleaf (by omega)
        refine ⟨hrest.linked, hrest.settled, hrest.size.trans hcut.size, ?_⟩
        intro m i
        rw [hrest.holds_iff, hcut.holds_iff]
        refine and_iff_right_of_imp ?_
        -- The parent had a child, so it held no state.
        rintro ⟨-, w, hw, hi⟩ rfl
        rw [h.inner m w n hw (by rw [hz, Option.some.injEq] at hw; exact hw ▸ hzn)] at hi
        cases hi
      | false =>
        have hstop : removeUp k t' p = t' := by
          obtain ⟨j, rfl⟩ : ∃ j, k = j + 1 := ⟨k - 1, by omega⟩
          simp [removeUp, hz', hzleaf]
        rw [hstop]
        refine ⟨hlinked, ?_, hcut.size, fun m i => hcut.holds_iff⟩
        intro m y hy hyleaf
        refine hsettled' m y hy hyleaf ?_
        rintro rfl
        rw [hz', Option.some.injEq] at hy
        rw [← hy, hzleaf] at hyleaf
        cases hyleaf

/-- Removing the leaf of a state keeps the tree in shape. -/
theorem remove_keeps {i : Nat} (h : t.Linked) (hsettled : t.Settled) (hi : t.Holds n i) :
    t.Removed n (t.remove n) := by
  obtain ⟨x, hx, hi⟩ := hi
  exact removeUp_keeps h (fun m y hy hleaf _ => hsettled m y hy hleaf) hx (h.isLeaf hx hi)
    (node?_lt hx)

end ProcessTree

end PmemPaths.Execution
