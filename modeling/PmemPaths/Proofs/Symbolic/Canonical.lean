import PmemPaths.Proofs.Symbolic.Refolding

/-!
# Canonical terms

A term is *canonical* when no folding constructor would fold any of its nodes
(`Term.Canonical`): a constant comes first, and operands that are constant, equal or the
negation of each other are gone.  Folding constructors make canonical terms of canonical
ones (`Term.refold_canonical`), and replacing by canonical terms keeps a term canonical
(`Term.replace_canonical`).
-/

namespace PmemPaths.Symbolic.Term

section

variable {ι : Type} {m : ι} {t u x y c : Term ι}

/-! ## The parts of a term -/

/-- All nodes of a term, its topmost one included. -/
def parts : Term ι → List (Term ι)
  | t@(constant _ _ _) | t@(read _ _ _) => [t]
  | t@(not _ x) => t :: x.parts
  | t@(eq _ x y) | t@(ult _ x y) | t@(and _ x y) | t@(or _ x y) | t@(add _ x y) =>
    t :: (x.parts ++ y.parts)
  | t@(select _ c x y) => t :: (c.parts ++ (x.parts ++ y.parts))

/-- What all nodes of a term have, its topmost node has and all nodes of its operands. -/
theorem forall_parts {P : Term ι → Prop} :
    (∀ u ∈ t.parts, P u) ↔ P t ∧ ∀ x ∈ t.children, ∀ u ∈ x.parts, P u := by
  cases t <;> simp [parts, children, or_imp, forall_and]

/-- What folding makes of a node has a property everywhere if its operands do and no node
but a byte can lack it. -/
theorem FoldsTo.forall_parts {P : Term ι → Prop} (h : FoldsTo t u)
    (hnew : ∀ v : Term ι, v.mark = t.mark → (∀ m a i, v ≠ read m a i) → P v)
    (ht : ∀ m a i, t ≠ read m a i) (hx : ∀ x ∈ t.children, ∀ v ∈ x.parts, P v) :
    ∀ v ∈ u.parts, P v := by
  cases h with
  | self => exact Term.forall_parts.mpr ⟨hnew t rfl ht, hx⟩
  | constant n w => exact Term.forall_parts.mpr ⟨hnew _ rfl (by simp), by simp [children]⟩
  | operand h => exact hx _ h
  | unnegated h => exact (Term.forall_parts.mp (hx _ h)).2 _ List.mem_cons_self
  | negation h =>
    refine Term.forall_parts.mpr ⟨hnew _ rfl (by simp), ?_⟩
    intro x hz
    rw [List.mem_singleton.mp hz]
    exact hx _ h
  | swapEq =>
    refine Term.forall_parts.mpr ⟨hnew _ rfl (by simp), fun z hz => hx z ?_⟩
    simp only [children, List.mem_cons, List.not_mem_nil, or_false] at hz ⊢
    exact hz.symm
  | swapAdd =>
    refine Term.forall_parts.mpr ⟨hnew _ rfl (by simp), fun z hz => hx z ?_⟩
    simp only [children, List.mem_cons, List.not_mem_nil, or_false] at hz ⊢
    exact hz.symm

/-! ## Canonical terms -/

/-- The topmost node is a negation. -/
def isNegation : Term ι → Bool
  | not _ _ => true
  | _ => false

/-- The folding constructor of its kind leaves the topmost node as it is. -/
def Tidy : Term ι → Prop
  | constant _ _ _ | read _ _ _ => True
  | eq _ x y => y.isConstant = false ∧ x.plain ≠ y.plain ∧
      ¬ (x.isConstant = true ∧ x.width = boolWidth)
  | ult _ x y => x.plain ≠ y.plain ∧ ¬ (x.isConstant = true ∧ y.isConstant = true) ∧
      y.constant? ≠ some 0
  | and _ x y | or _ x y => x.isConstant = false ∧ y.isConstant = false ∧ x.plain ≠ y.plain ∧
      complementary x y = false
  | not _ x => x.isConstant = false ∧ x.isNegation = false
  | add _ x y => y.isConstant = false ∧ x.constant? ≠ some 0
  | select _ c x y => c.isConstant = false ∧ x.plain ≠ y.plain

instance decidableTidy : DecidablePred (Tidy (ι := ι))
  | constant _ _ _ | read _ _ _ => inferInstanceAs (Decidable True)
  | eq _ x y => inferInstanceAs (Decidable (y.isConstant = false ∧ x.plain ≠ y.plain ∧
      ¬ (x.isConstant = true ∧ x.width = boolWidth)))
  | ult _ x y => inferInstanceAs (Decidable (x.plain ≠ y.plain ∧
      ¬ (x.isConstant = true ∧ y.isConstant = true) ∧ y.constant? ≠ some 0))
  | and _ x y | or _ x y => inferInstanceAs (Decidable (x.isConstant = false ∧
      y.isConstant = false ∧ x.plain ≠ y.plain ∧ complementary x y = false))
  | not _ x => inferInstanceAs (Decidable (x.isConstant = false ∧ x.isNegation = false))
  | add _ x y => inferInstanceAs (Decidable (y.isConstant = false ∧ x.constant? ≠ some 0))
  | select _ c x y => inferInstanceAs (Decidable (c.isConstant = false ∧ x.plain ≠ y.plain))

/-- No node of the term can be folded. -/
def Canonical (t : Term ι) : Prop := ∀ u ∈ t.parts, u.Tidy

instance : DecidablePred (Canonical (ι := ι)) := fun t =>
  inferInstanceAs (Decidable (∀ u ∈ t.parts, u.Tidy))

/-! ### Marks do not matter -/

@[simp] theorem constant?_plain (t : Term ι) : t.plain.constant? = t.constant? := by
  cases t <;> rfl

@[simp] theorem isConstant_plain (t : Term ι) : t.plain.isConstant = t.isConstant := by
  cases t <;> rfl

@[simp] theorem isNegation_plain (t : Term ι) : t.plain.isNegation = t.isNegation := by
  cases t <;> rfl

@[simp] theorem isNegationOf_plain (x : Term ι) (e : Expr) :
    x.plain.isNegationOf e = x.isNegationOf e := by
  cases x <;> simp [plain, isNegationOf]

@[simp] theorem parts_plain (t : Term ι) : t.plain.parts = t.parts.map plain := by
  induction t <;> simp_all [plain, parts]

/-- Whether a node can be folded does not depend on marks. -/
theorem tidy_plain : t.plain.Tidy ↔ t.Tidy := by
  cases t <;> simp [plain, Tidy, complementary]

theorem canonical_plain : t.plain.Canonical ↔ t.Canonical := by
  simp only [Canonical, parts_plain, List.forall_mem_map, tidy_plain]

/-- A term is canonical if its topmost node cannot be folded and its operands are
canonical. -/
theorem canonical_iff : t.Canonical ↔ t.Tidy ∧ ∀ x ∈ t.children, x.Canonical := forall_parts

theorem canonical_constant {n w : Nat} : (constant m n w).Canonical :=
  canonical_iff.mpr ⟨trivial, by simp [children]⟩

theorem canonical_of_isConstant (h : t.isConstant = true) : t.Canonical := by
  obtain ⟨n, hn⟩ := Option.isSome_iff_exists.mp h
  obtain ⟨m, w, rfl⟩ := constant?_eq_some hn
  exact canonical_constant

theorem canonical_not : (not m x).Canonical ↔ (not m x).Tidy ∧ x.Canonical := by
  rw [canonical_iff]
  simp [children]

theorem canonical_add : (add m x y).Canonical ↔ (add m x y).Tidy ∧ x.Canonical ∧ y.Canonical := by
  rw [canonical_iff]
  simp [children]

theorem canonical_eq : (eq m x y).Canonical ↔ (eq m x y).Tidy ∧ x.Canonical ∧ y.Canonical := by
  rw [canonical_iff]
  simp [children]

/-! ## Folding makes canonical terms -/

theorem isConstant_eq_false (h : t.constant? = none) : t.isConstant = false := by
  rw [isConstant, h]
  rfl

/-- A truth value that is constant is true or false. -/
theorem isConstant_of_isConstraint (h : t.IsConstraint) (ht : t.isTrue = false)
    (hf : t.isFalse = false) : t.isConstant = false := by
  cases t with
  | constant m n w =>
    have hlt : n < 2 := h.wellTyped.value_lt_two h.width_eq fun _ _ => 0
    obtain rfl : w = boolWidth := h.width_eq
    simp only [isTrue, isFalse, decide_true, Bool.and_true, decide_eq_false_iff_not] at ht hf
    omega
  | _ => rfl

theorem mkNot_canonical (hx : x.Canonical) : (mkNot m x).Canonical := by
  cases x with
  | constant k n w => exact canonical_constant
  | not k y => exact (canonical_not.mp hx).2
  | _ => exact canonical_not.mpr ⟨⟨rfl, rfl⟩, hx⟩

/-- With its constant in front an equation folds to a canonical term. -/
theorem mkEqOrdered_canonical (h : (eq m x y).WellTyped) (hy : y.isConstant = false)
    (hcx : x.Canonical) (hcy : y.Canonical) : (mkEqOrdered m x y).Canonical := by
  obtain ⟨hx, -, hw⟩ := h
  rw [mkEqOrdered]
  split
  · exact canonical_constant
  next hne =>
  split
  · exact hcy
  next ht =>
  split
  · exact mkNot_canonical hcy
  next hf =>
  refine canonical_eq.mpr ⟨⟨hy, hne, ?_⟩, hcx, hcy⟩
  rintro ⟨hc, hwx⟩
  simp only [← hw, hwx, decide_true, Bool.true_and, Bool.not_eq_true] at ht hf
  rw [isConstant_of_isConstraint ⟨hx, hwx⟩ ht hf] at hc
  cases hc

theorem mkEq_canonical (h : (eq m x y).WellTyped) (hx : x.Canonical) (hy : y.Canonical) :
    (mkEq m x y).Canonical := by
  rw [mkEq]
  split
  · exact canonical_constant
  · next hcx _ =>
    exact mkEqOrdered_canonical (eq_comm_agrees h).wellTyped (isConstant_eq_false hcx) hy hx
  · next hboth hright =>
    refine mkEqOrdered_canonical h (isConstant_eq_false ?_) hx hy
    rcases hcy : y.constant? with _ | b
    · rfl
    · rcases hcx : x.constant? with _ | a
      · exact absurd hcy (hright b hcx)
      · exact absurd hcy (hboth a b hcx)

theorem mkUlt_canonical (hx : x.Canonical) (hy : y.Canonical) : (mkUlt m x y).Canonical := by
  rw [mkUlt]
  split
  · exact canonical_constant
  · exact canonical_constant
  next hzero hboth =>
  split
  · exact canonical_constant
  next hne =>
  refine canonical_iff.mpr ⟨⟨hne, ?_, hzero⟩, ?_⟩
  · simp only [isConstant, Option.isSome_iff_exists]
    rintro ⟨⟨a, ha⟩, b, hb⟩
    exact hboth a b ha hb
  · simp [children, hx, hy]

theorem mkAnd_canonical (h : (and m x y).WellTyped) (hx : x.Canonical) (hy : y.Canonical) :
    (mkAnd m x y).Canonical := by
  obtain ⟨htx, hty, hwx, hwy⟩ := h
  rw [mkAnd]
  split
  · exact canonical_constant
  next hfalse =>
  split
  · exact hy
  next hleft =>
  split
  · exact hx
  next hright =>
  simp only [Bool.or_eq_true, decide_eq_true_eq, not_or, Bool.not_eq_true] at hfalse hleft hright
  obtain ⟨⟨hfx, hfy⟩, hcomp⟩ := hfalse
  refine canonical_iff.mpr ⟨⟨?_, ?_, hright.2, hcomp⟩, by simp [children, hx, hy]⟩
  · exact isConstant_of_isConstraint ⟨htx, hwx⟩ hleft hfx
  · exact isConstant_of_isConstraint ⟨hty, hwy⟩ hright.1 hfy

theorem mkOr_canonical (h : (or m x y).WellTyped) (hx : x.Canonical) (hy : y.Canonical) :
    (mkOr m x y).Canonical := by
  obtain ⟨htx, hty, hwx, hwy⟩ := h
  rw [mkOr]
  split
  · exact canonical_constant
  next htrue =>
  split
  · exact hy
  next hleft =>
  split
  · exact hx
  next hright =>
  simp only [Bool.or_eq_true, decide_eq_true_eq, not_or, Bool.not_eq_true] at htrue hleft hright
  obtain ⟨⟨htrx, htry⟩, hcomp⟩ := htrue
  refine canonical_iff.mpr ⟨⟨?_, ?_, hright.2, hcomp⟩, by simp [children, hx, hy]⟩
  · exact isConstant_of_isConstraint ⟨htx, hwx⟩ htrx hleft
  · exact isConstant_of_isConstraint ⟨hty, hwy⟩ htry hright.1

theorem mkAdd_canonical (hx : x.Canonical) (hy : y.Canonical) : (mkAdd m x y).Canonical := by
  rw [mkAdd]
  split
  · exact canonical_constant
  · exact hy
  · exact hx
  · next hzero hcx hcy =>
    refine canonical_add.mpr ⟨⟨isConstant_eq_false hcx, ?_⟩, hy, hx⟩
    rw [hcy]
    exact fun h => hzero (Option.some.inj h)
  · next hboth hleft _ hright =>
    have hcy : y.constant? = none := by
      rcases hcy : y.constant? with _ | b
      · rfl
      · rcases hcx : x.constant? with _ | a
        · exact (hright b hcx hcy).elim
        · exact (hboth a b hcx hcy).elim
    exact canonical_add.mpr ⟨⟨isConstant_eq_false hcy, fun h => hleft h hcy⟩, hx, hy⟩

theorem mkSelect_canonical (h : (select m c x y).WellTyped) (hc : c.Canonical)
    (hx : x.Canonical) (hy : y.Canonical) : (mkSelect m c x y).Canonical := by
  obtain ⟨htc, -, -, hwc, -⟩ := h
  rw [mkSelect]
  split
  · exact hx
  next htrue =>
  split
  · exact hy
  next hfalse =>
  simp only [Bool.or_eq_true, decide_eq_true_eq, not_or, Bool.not_eq_true] at htrue hfalse
  refine canonical_iff.mpr ⟨⟨?_, hfalse.2⟩, by simp [children, hc, hx, hy]⟩
  exact isConstant_of_isConstraint ⟨htc, hwc⟩ htrue hfalse.1

/-- Folding constructors make canonical terms of canonical operands. -/
theorem refold_canonical (h : t.WellTyped) (hx : ∀ x ∈ t.children, x.Canonical) :
    t.refold.Canonical := by
  cases t with
  | constant m n w => exact canonical_constant
  | read m a i => exact canonical_iff.mpr ⟨trivial, hx⟩
  | not m x => exact mkNot_canonical (hx x (by simp [children]))
  | eq m x y => exact mkEq_canonical h (hx x (by simp [children])) (hx y (by simp [children]))
  | ult m x y => exact mkUlt_canonical (hx x (by simp [children])) (hx y (by simp [children]))
  | and m x y => exact mkAnd_canonical h (hx x (by simp [children])) (hx y (by simp [children]))
  | or m x y => exact mkOr_canonical h (hx x (by simp [children])) (hx y (by simp [children]))
  | add m x y => exact mkAdd_canonical (hx x (by simp [children])) (hx y (by simp [children]))
  | select m c x y =>
    exact mkSelect_canonical h (hx c (by simp [children])) (hx x (by simp [children]))
      (hx y (by simp [children]))

end

/-! ## Replacing keeps terms canonical -/

section

variable {find : Expr → Option Node} {t u : Node}

/-- A node over operands of the same widths has the width of the node. -/
theorem Over.typed (h : Over (fun x x' => x'.Typed x.width) t u) (ht : t.WellTyped) :
    u.Typed t.width := by
  cases h with
  | not hx => exact ⟨⟨hx.wellTyped, hx.width_eq.trans ht.2⟩, rfl⟩
  | eq hx hy =>
    exact ⟨⟨hx.wellTyped, hy.wellTyped, by rw [hx.width_eq, hy.width_eq, ht.2.2]⟩, rfl⟩
  | ult hx hy =>
    exact ⟨⟨hx.wellTyped, hy.wellTyped, by rw [hx.width_eq, hy.width_eq, ht.2.2]⟩, rfl⟩
  | and hx hy =>
    exact ⟨⟨hx.wellTyped, hy.wellTyped, hx.width_eq.trans ht.2.2.1,
      hy.width_eq.trans ht.2.2.2⟩, rfl⟩
  | or hx hy =>
    exact ⟨⟨hx.wellTyped, hy.wellTyped, hx.width_eq.trans ht.2.2.1,
      hy.width_eq.trans ht.2.2.2⟩, rfl⟩
  | add hx hy =>
    exact ⟨⟨hx.wellTyped, hy.wellTyped, by rw [hx.width_eq, hy.width_eq, ht.2.2]⟩, hx.width_eq⟩
  | select hc hx hy =>
    exact ⟨⟨hc.wellTyped, hx.wellTyped, hy.wellTyped, hc.width_eq.trans ht.2.2.2.1,
      by rw [hx.width_eq, hy.width_eq, ht.2.2.2.2]⟩, hx.width_eq⟩

theorem WellTyped.of_mem_children (h : t.WellTyped) : ∀ x ∈ t.children, x.WellTyped := by
  cases t <;> simp_all [WellTyped, children]

/-- What replacement folds anew is canonical, by induction on the replacement. -/
theorem replaceNode_canonical
    (hit : ∀ e r, find e = some r → r.Typed e.width ∧ r.Canonical) (ht : t.WellTyped)
    (hc : t.Canonical) : (replaceNode find t).term.Typed t.width ∧
      (replaceNode find t).term.Canonical := by
  refine replaceNode_induct (R := fun t u => t.WellTyped → t.Canonical →
    u.Typed t.width ∧ u.Canonical) ?hit ?same ?fold t ht hc
  case hit =>
    intro t r hr _ _
    obtain ⟨htyped, hcanonical⟩ := hit _ r hr
    exact ⟨⟨htyped.wellTyped, htyped.width_eq.trans (width_plain t)⟩, hcanonical⟩
  case same => exact fun t _ _ ht hc => ⟨⟨ht, rfl⟩, hc⟩
  case fold =>
    intro t u _ hover ht hc
    have hover' := hover.imp (S := fun x x' => x'.Typed x.width ∧ x'.Canonical)
      fun x hx x' h => h (ht.of_mem_children x hx) ((canonical_iff.mp hc).2 x hx)
    have htyped := (hover'.imp fun _ _ _ h => h.1).typed ht
    have hagrees := refold_agrees htyped.wellTyped
    refine ⟨⟨hagrees.wellTyped, hagrees.width_eq.trans htyped.width_eq⟩, ?_⟩
    refine refold_canonical htyped.wellTyped fun x' hx' => ?_
    obtain ⟨x, -, -, hx'⟩ := hover'.of_mem hx'
    exact hx'

/-- Replacing by canonical terms of the same widths keeps a term canonical. -/
theorem replace_canonical {table : Replacements}
    (htable : ∀ (e : Expr) (r : Node), table[e]? = some r → r.Typed e.width ∧ r.Canonical)
    (ht : t.WellTyped) (hc : t.Canonical) : (t.replace table).Canonical :=
  (replaceNode_canonical htable ht hc).2

end

end PmemPaths.Symbolic.Term
