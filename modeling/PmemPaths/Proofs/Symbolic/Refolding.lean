import PmemPaths.Proofs.Symbolic.Replacement

/-!
# Nodes folded anew

What the folding constructor of its kind makes of the operands of a node agrees with the
node (`Term.refold_agrees`), and is one of few things: a constant, an operand, or a node
over the same operands (`Term.refold_foldsTo`).

A term after replacement is made of replacements, of parts that stay as they are, and of
nodes folded anew over operands of that sort.  What a replacement keeps is therefore shown
by one induction (`Term.replaceNode_induct`).
-/

namespace PmemPaths.Symbolic.Term

section

variable {ι : Type} {m : ι} {t u x y c : Term ι}

/-- What the folding constructor of its kind makes of the operands of a node. -/
def refold : Term ι → Term ι
  | constant m n w => mkConstant m n w
  | read m a i => mkRead m a i
  | eq m x y => mkEq m x y
  | ult m x y => mkUlt m x y
  | and m x y => mkAnd m x y
  | or m x y => mkOr m x y
  | not m x => mkNot m x
  | add m x y => mkAdd m x y
  | select m c x y => mkSelect m c x y

/-- A well-typed node may be folded anew. -/
theorem refold_agrees (h : t.WellTyped) : t.refold.Agrees t := by
  cases t with
  | constant m n w =>
    refine ⟨mkConstant_wellTyped ⟨h.1, h.2.1⟩, rfl, fun σ => ?_⟩
    rw [refold, mkConstant_value h.2.1, Nat.mod_eq_of_lt h.2.2, value]
  | read m a i => exact h.agrees
  | eq m x y => exact mkEq_agrees h
  | ult m x y => exact mkUlt_agrees h
  | and m x y => exact mkAnd_agrees h
  | or m x y => exact mkOr_agrees h
  | not m x => exact mkNot_agrees h
  | add m x y => exact mkAdd_agrees h
  | select m c x y => exact mkSelect_agrees h

/-! ## What folding can make -/

/-- What folding can make of a node. -/
inductive FoldsTo : Term ι → Term ι → Prop
  /-- Nothing is to be folded. -/
  | self (t : Term ι) : FoldsTo t t
  | constant (t : Term ι) (n w : Nat) : FoldsTo t (constant t.mark n w)
  | operand {t x : Term ι} : x ∈ t.children → FoldsTo t x
  /-- An operand is a negation, and this is its operand. -/
  | unnegated {t x : Term ι} {k : ι} : Term.not k x ∈ t.children → FoldsTo t x
  /-- The other operand is false. -/
  | negation {m : ι} {x y z : Term ι} : z ∈ (eq m x y).children → FoldsTo (eq m x y) (not m z)
  /-- The constant comes first. -/
  | swapEq {m : ι} {x y : Term ι} : FoldsTo (eq m x y) (eq m y x)
  | swapAdd {m : ι} {x y : Term ι} : FoldsTo (add m x y) (add m y x)

theorem mkNot_foldsTo : FoldsTo (not m x) (mkNot m x) := by
  cases x with
  | constant k n w => exact .constant _ _ _
  | not k y => exact .unnegated List.mem_cons_self
  | _ => exact .self _

theorem mkEqOrdered_foldsTo : FoldsTo (eq m x y) (mkEqOrdered m x y) := by
  have hy : y ∈ (eq m x y).children := by simp [children]
  rw [mkEqOrdered]
  split
  · exact .constant _ _ _
  split
  · exact .operand hy
  split
  · cases y with
    | constant k n w => exact .constant _ _ _
    | not k z => exact .unnegated hy
    | _ => exact .negation hy
  · exact .self _

/-- What folding makes of an equation it can make of one with the sides swapped. -/
theorem FoldsTo.of_swap (h : FoldsTo (eq m y x) u) : FoldsTo (eq m x y) u := by
  have hmem : ∀ {z}, z ∈ (eq m y x).children → z ∈ (eq m x y).children := by
    simp only [children, List.mem_cons, List.not_mem_nil, or_false]
    exact fun h => h.symm
  cases h with
  | self => exact .swapEq
  | constant => exact .constant _ _ _
  | operand hx => exact .operand (hmem hx)
  | unnegated hx => exact .unnegated (hmem hx)
  | negation hx => exact .negation (hmem hx)
  | swapEq => exact .self _

theorem mkEq_foldsTo : FoldsTo (eq m x y) (mkEq m x y) := by
  rw [mkEq]
  split
  · exact .constant _ _ _
  · exact mkEqOrdered_foldsTo.of_swap
  · exact mkEqOrdered_foldsTo

theorem mkUlt_foldsTo : FoldsTo (ult m x y) (mkUlt m x y) := by
  rw [mkUlt]
  split
  · exact .constant _ _ _
  · exact .constant _ _ _
  · split
    · exact .constant _ _ _
    · exact .self _

theorem mkAnd_foldsTo : FoldsTo (and m x y) (mkAnd m x y) := by
  rw [mkAnd]
  split
  · exact .constant _ _ _
  split
  · exact .operand (by simp [children])
  split
  · exact .operand (by simp [children])
  · exact .self _

theorem mkOr_foldsTo : FoldsTo (or m x y) (mkOr m x y) := by
  rw [mkOr]
  split
  · exact .constant _ _ _
  split
  · exact .operand (by simp [children])
  split
  · exact .operand (by simp [children])
  · exact .self _

theorem mkAdd_foldsTo : FoldsTo (add m x y) (mkAdd m x y) := by
  rw [mkAdd]
  split
  · exact .constant _ _ _
  · exact .operand (by simp [children])
  · exact .operand (by simp [children])
  · exact .swapAdd
  · exact .self _

theorem mkSelect_foldsTo : FoldsTo (select m c x y) (mkSelect m c x y) := by
  rw [mkSelect]
  split
  · exact .operand (by simp [children])
  split
  · exact .operand (by simp [children])
  · exact .self _

/-- Every folding constructor makes one of these of a node. -/
theorem refold_foldsTo (t : Term ι) : FoldsTo t t.refold := by
  cases t with
  | constant m n w => exact .constant _ _ _
  | read m a i => exact .self _
  | eq m x y => exact mkEq_foldsTo
  | ult m x y => exact mkUlt_foldsTo
  | and m x y => exact mkAnd_foldsTo
  | or m x y => exact mkOr_foldsTo
  | not m x => exact mkNot_foldsTo
  | add m x y => exact mkAdd_foldsTo
  | select m c x y => exact mkSelect_foldsTo

end

/-! ## Induction on replacement -/

section

variable {find : Expr → Option Node} {R S : Node → Node → Prop} {t u x : Node}

/-- A node of the same kind over other operands, without an identity. -/
inductive Over (R : Node → Node → Prop) : Node → Node → Prop
  | not {m : Label} {x x' : Node} : R x x' → Over R (.not m x) (.not none x')
  | eq {m : Label} {x x' y y' : Node} : R x x' → R y y' → Over R (.eq m x y) (.eq none x' y')
  | ult {m : Label} {x x' y y' : Node} : R x x' → R y y' → Over R (.ult m x y) (.ult none x' y')
  | and {m : Label} {x x' y y' : Node} : R x x' → R y y' → Over R (.and m x y) (.and none x' y')
  | or {m : Label} {x x' y y' : Node} : R x x' → R y y' → Over R (.or m x y) (.or none x' y')
  | add {m : Label} {x x' y y' : Node} : R x x' → R y y' → Over R (.add m x y) (.add none x' y')
  | select {m : Label} {c c' x x' y y' : Node} : R c c' → R x x' → R y y' →
      Over R (.select m c x y) (.select none c' x' y')

theorem Over.mark_eq (h : Over R t u) : u.mark = none := by
  cases h <;> rfl

theorem Over.not_read (h : Over R t u) (m : Label) (a : SymbolicArray) (i : Nat) :
    u ≠ .read m a i := by
  cases h <;> simp

theorem Over.of_mem (h : Over R t u) (hx : x ∈ u.children) : ∃ y ∈ t.children, R y x := by
  cases h <;> simp only [children, List.mem_cons, List.not_mem_nil, or_false] at hx ⊢ <;> grind

/-- A node over operands of one relation is one over any that these operands have too. -/
theorem Over.imp (h : Over R t u) (hRS : ∀ x ∈ t.children, ∀ y, R x y → S x y) : Over S t u := by
  cases h <;> constructor <;> exact hRS _ (by simp [children]) _ ‹_›

theorem replaceNode_of_some {r : Node} (h : find t.plain = some r) :
    replaceNode find t = .instead t r := by
  unfold replaceNode
  rw [h]

/-- Induction on replacement: a term is replaced as a whole, stays as it is because its
operands do, or is folded anew over what became of the operands. -/
theorem replaceNode_induct (hit : ∀ t r, find t.plain = some r → R t r)
    (same : ∀ t, find t.plain = none →
      (∀ x ∈ t.children, (replaceNode find x).changed = false ∧ R x (replaceNode find x).term) →
      R t t)
    (fold : ∀ t u, find t.plain = none → Over R t u → R t u.refold) (t : Node) :
    R t (replaceNode find t).term := by
  have orElse : ∀ t, (find t.plain = none → R t (replaceNode find t).term) →
      R t (replaceNode find t).term := by
    intro t h
    rcases hr : find t.plain with _ | r
    · exact h hr
    · rw [replaceNode_of_some hr]
      exact hit t r hr
  induction t with
  | constant m n w =>
    refine orElse _ fun hr => ?_
    rw [replaceNode, hr]
    exact same _ hr (by simp [children])
  | read m a i =>
    refine orElse _ fun hr => ?_
    rw [replaceNode, hr]
    exact same _ hr (by simp [children])
  | not m x ih =>
    refine orElse _ fun hr => ?_
    have hs := same _ hr
    rw [replaceNode, hr]
    simp only [rebuild₁]
    split
    · exact fold _ _ hr (.not ih)
    · exact hs (by simp_all [children])
  | eq m x y ihx ihy =>
    refine orElse _ fun hr => ?_
    have hs := same _ hr
    rw [replaceNode, hr]
    simp only [rebuild₂]
    split
    · exact fold _ _ hr (.eq ihx ihy)
    · exact hs (by simp_all [children])
  | ult m x y ihx ihy =>
    refine orElse _ fun hr => ?_
    have hs := same _ hr
    rw [replaceNode, hr]
    simp only [rebuild₂]
    split
    · exact fold _ _ hr (.ult ihx ihy)
    · exact hs (by simp_all [children])
  | and m x y ihx ihy =>
    refine orElse _ fun hr => ?_
    have hs := same _ hr
    rw [replaceNode, hr]
    simp only [rebuild₂]
    split
    · exact fold _ _ hr (.and ihx ihy)
    · exact hs (by simp_all [children])
  | or m x y ihx ihy =>
    refine orElse _ fun hr => ?_
    have hs := same _ hr
    rw [replaceNode, hr]
    simp only [rebuild₂]
    split
    · exact fold _ _ hr (.or ihx ihy)
    · exact hs (by simp_all [children])
  | add m x y ihx ihy =>
    refine orElse _ fun hr => ?_
    have hs := same _ hr
    rw [replaceNode, hr]
    simp only [rebuild₂]
    split
    · exact fold _ _ hr (.add ihx ihy)
    · exact hs (by simp_all [children])
  | select m c x y ihc ihx ihy =>
    refine orElse _ fun hr => ?_
    have hs := same _ hr
    rw [replaceNode, hr]
    simp only [rebuild₃]
    split
    · exact fold _ _ hr (.select ihc ihx ihy)
    · exact hs (by simp_all [children])

/-! ## Folding and replacing -/

/-- What keeps the value under an assignment is replaced under that assignment. -/
theorem replaces_of_value_eq {table : Replacements} {σ : Assignment}
    (htable : ∀ (e : Expr) (r : Node), table[e]? = some r →
      r.Typed e.width ∧ r.value σ = e.value σ) :
    Replaces (· = σ) fun e => table[e]? := by
  intro e r hr
  obtain ⟨htyped, hvalue⟩ := htable e r hr
  refine ⟨htyped.wellTyped, htyped.width_eq, ?_⟩
  rintro σ' rfl
  exact hvalue

/-- Folding a well-typed node gives a well-typed term of its width and of its value under
every assignment.  Replacing expressions by terms of their widths, and of their values
under one assignment, gives a well-typed term of the same width and of the same value
under that assignment. -/
theorem folding_keeps_meaning {ι : Type} :
    (∀ t : Term ι, t.WellTyped → t.refold.Agrees t) ∧
    ∀ (table : Replacements) (σ : Assignment) (t : Node), t.WellTyped →
      (∀ (e : Expr) (r : Node), table[e]? = some r → r.Typed e.width ∧ r.value σ = e.value σ) →
      (t.replace table).Typed t.width ∧ (t.replace table).value σ = t.value σ := by
  refine ⟨fun t => refold_agrees, ?_⟩
  intro table σ t ht htable
  have hagrees := replace_agrees (replaces_of_value_eq htable) ht
  exact ⟨⟨hagrees.wellTyped, hagrees.width_eq⟩, hagrees.value_eq σ rfl⟩

/-- A negation of a negation, and a byte that is replaced by three where it is three. -/
theorem folding_keeps_meaning_three :
    let x : Node := .read (some 0) ⟨"in", 4⟩ 0
    let below : Node := .ult (some 2) x (.constant (some 1) 10 8)
    let three : Node := .constant (some 3) 3 8
    let table := (∅ : Replacements).insert x.plain three
    let σ : Assignment := fun _ _ => 3
    (Term.not none (.not none below)).WellTyped ∧
      (Term.not none (.not none below)).refold.Agrees (.not none (.not none below)) ∧
      below.WellTyped ∧
      (∀ (e : Expr) (r : Node), table[e]? = some r → r.Typed e.width ∧ r.value σ = e.value σ) ∧
      (below.replace table).Typed below.width ∧
      (below.replace table).value σ = below.value σ := by
  intro x below three table σ
  have hnot : (Term.not none (.not none below)).WellTyped := by decide
  have hbelow : below.WellTyped := by decide
  have htable : ∀ (e : Expr) (r : Node), table[e]? = some r →
      r.Typed e.width ∧ r.value σ = e.value σ := by
    intro e r hr
    obtain ⟨rfl, rfl⟩ := getElem?_single hr
    exact ⟨⟨by decide, rfl⟩, rfl⟩
  obtain ⟨hfold, hreplace⟩ := folding_keeps_meaning (ι := Label)
  exact ⟨hnot, hfold _ hnot, hbelow, htable, hreplace table σ below hbelow htable⟩

end

end PmemPaths.Symbolic.Term
