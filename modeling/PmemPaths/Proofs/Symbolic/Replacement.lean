import PmemPaths.Proofs.Symbolic.Folding
import PmemPaths.Symbolic.Replace

/-!
# Replacement keeps the meaning

A table of replacements *fits* when it has well-typed nodes of the widths of what
they replace.  Replacing by such a table keeps terms well typed and keeps their
widths, and under every assignment that gives all entries of the table the value
of what they replace, it keeps the value (`Term.replace_agrees`).
-/

namespace PmemPaths.Symbolic

open Term

/-- A term agrees with another under some assignments. -/
structure AgreesWhere {ι κ : Type} (P : Assignment → Prop) (t : Term ι) (u : Term κ) : Prop where
  wellTyped : t.WellTyped
  width_eq : t.width = u.width
  value_eq : ∀ σ, P σ → t.value σ = u.value σ

namespace AgreesWhere

variable {P : Assignment → Prop} {k m : Label} {c c' x x' y y' : Node}

theorem refl (h : x.WellTyped) : AgreesWhere P x x := ⟨h, rfl, fun _ _ => rfl⟩

/-- What agrees everywhere agrees with what the other agrees with. -/
theorem of_agrees {t u v : Node} (h : t.Agrees u) (h' : AgreesWhere P u v) : AgreesWhere P t v :=
  ⟨h.wellTyped, h.width_eq.trans h'.width_eq, fun σ hσ => (h.value_eq σ).trans (h'.value_eq σ hσ)⟩

/-! ## Nodes over operands that agree -/

theorem not (hx : AgreesWhere P x' x) (h : (Term.not m x).WellTyped) :
    AgreesWhere P (Term.not k x') (Term.not m x) :=
  ⟨⟨hx.wellTyped, hx.width_eq.trans h.2⟩, rfl, fun σ hσ => by simp only [value, hx.value_eq σ hσ]⟩

theorem eq (hx : AgreesWhere P x' x) (hy : AgreesWhere P y' y) (h : (Term.eq m x y).WellTyped) :
    AgreesWhere P (Term.eq k x' y') (Term.eq m x y) := by
  refine ⟨⟨hx.wellTyped, hy.wellTyped, ?_⟩, rfl, fun σ hσ => ?_⟩
  · rw [hx.width_eq, hy.width_eq, h.2.2]
  · simp only [value, hx.value_eq σ hσ, hy.value_eq σ hσ]

theorem ult (hx : AgreesWhere P x' x) (hy : AgreesWhere P y' y) (h : (Term.ult m x y).WellTyped) :
    AgreesWhere P (Term.ult k x' y') (Term.ult m x y) := by
  refine ⟨⟨hx.wellTyped, hy.wellTyped, ?_⟩, rfl, fun σ hσ => ?_⟩
  · rw [hx.width_eq, hy.width_eq, h.2.2]
  · simp only [value, hx.value_eq σ hσ, hy.value_eq σ hσ]

theorem and (hx : AgreesWhere P x' x) (hy : AgreesWhere P y' y) (h : (Term.and m x y).WellTyped) :
    AgreesWhere P (Term.and k x' y') (Term.and m x y) := by
  refine ⟨⟨hx.wellTyped, hy.wellTyped, ?_, ?_⟩, rfl, fun σ hσ => ?_⟩
  · rw [hx.width_eq, h.2.2.1]
  · rw [hy.width_eq, h.2.2.2]
  · simp only [value, hx.value_eq σ hσ, hy.value_eq σ hσ]

theorem or (hx : AgreesWhere P x' x) (hy : AgreesWhere P y' y) (h : (Term.or m x y).WellTyped) :
    AgreesWhere P (Term.or k x' y') (Term.or m x y) := by
  refine ⟨⟨hx.wellTyped, hy.wellTyped, ?_, ?_⟩, rfl, fun σ hσ => ?_⟩
  · rw [hx.width_eq, h.2.2.1]
  · rw [hy.width_eq, h.2.2.2]
  · simp only [value, hx.value_eq σ hσ, hy.value_eq σ hσ]

theorem add (hx : AgreesWhere P x' x) (hy : AgreesWhere P y' y) (h : (Term.add m x y).WellTyped) :
    AgreesWhere P (Term.add k x' y') (Term.add m x y) := by
  refine ⟨⟨hx.wellTyped, hy.wellTyped, ?_⟩, hx.width_eq, fun σ hσ => ?_⟩
  · rw [hx.width_eq, hy.width_eq, h.2.2]
  · simp only [value, hx.value_eq σ hσ, hy.value_eq σ hσ, hx.width_eq]

theorem select (hc : AgreesWhere P c' c) (hx : AgreesWhere P x' x) (hy : AgreesWhere P y' y)
    (h : (Term.select m c x y).WellTyped) :
    AgreesWhere P (Term.select k c' x' y') (Term.select m c x y) := by
  refine ⟨⟨hc.wellTyped, hx.wellTyped, hy.wellTyped, ?_, ?_⟩, hx.width_eq, fun σ hσ => ?_⟩
  · rw [hc.width_eq, h.2.2.2.1]
  · rw [hx.width_eq, hy.width_eq, h.2.2.2.2]
  · simp only [value, hc.value_eq σ hσ, hx.value_eq σ hσ, hy.value_eq σ hσ]

end AgreesWhere

/-! ## Replacing -/

namespace Term

variable {P : Assignment → Prop} {find : Expr → Option Node}

/-- What replaces an expression agrees with it. -/
def Replaces (P : Assignment → Prop) (find : Expr → Option Node) : Prop :=
  ∀ e r, find e = some r → AgreesWhere P r e

theorem rebuild₁_agrees {t : Node} {make : Node → Node} {x : Replaced} (ht : t.WellTyped)
    (h : AgreesWhere P (make x.term) t) : AgreesWhere P (rebuild₁ t make x).term t := by
  rw [rebuild₁]
  split
  · exact h
  · exact .refl ht

/-- Whether a node stays or is made again, it agrees when what is made does. -/
theorem rebuild₂_agrees {t : Node} {make : Node → Node → Node} {x y : Replaced}
    (ht : t.WellTyped) (h : AgreesWhere P (make x.term y.term) t) :
    AgreesWhere P (rebuild₂ t make x y).term t := by
  rw [rebuild₂]
  split
  · exact h
  · exact .refl ht

theorem rebuild₃_agrees {t : Node} {make : Node → Node → Node → Node} {x y z : Replaced}
    (ht : t.WellTyped) (h : AgreesWhere P (make x.term y.term z.term) t) :
    AgreesWhere P (rebuild₃ t make x y z).term t := by
  rw [rebuild₃]
  split
  · exact h
  · exact .refl ht

/-- A term for which there is a replacement is replaced by what agrees with it. -/
theorem Replaces.orElse {t : Node} (hf : Replaces P find)
    (h : find t.plain = none → AgreesWhere P (replaceNode find t).term t) :
    AgreesWhere P (replaceNode find t).term t := by
  rcases hr : find t.plain with _ | r
  · exact h hr
  · have hterm : (replaceNode find t).term = r := by
      unfold replaceNode
      rw [hr]
      rfl
    have ha := hf _ _ hr
    rw [hterm]
    exact ⟨ha.wellTyped, ha.width_eq.trans (width_plain t),
      fun σ hσ => (ha.value_eq σ hσ).trans (value_plain σ t)⟩

/-- What is replaced agrees with what it replaces, by induction on the term. -/
theorem replaceNode_agrees {t : Node} (hf : Replaces P find) (ht : t.WellTyped) :
    AgreesWhere P (replaceNode find t).term t := by
  induction t with
  | constant m n w =>
    refine hf.orElse fun hr => ?_
    rw [replaceNode, hr]
    exact .refl ht
  | read m a i =>
    refine hf.orElse fun hr => ?_
    rw [replaceNode, hr]
    exact .refl ht
  | not m x ih =>
    refine hf.orElse fun hr => ?_
    have h := AgreesWhere.not (k := none) (ih ht.1) ht
    rw [replaceNode, hr]
    exact rebuild₁_agrees ht (.of_agrees (mkNot_agrees h.wellTyped) h)
  | eq m x y ihx ihy =>
    refine hf.orElse fun hr => ?_
    have h := AgreesWhere.eq (k := none) (ihx ht.1) (ihy ht.2.1) ht
    rw [replaceNode, hr]
    exact rebuild₂_agrees ht (.of_agrees (mkEq_agrees h.wellTyped) h)
  | ult m x y ihx ihy =>
    refine hf.orElse fun hr => ?_
    have h := AgreesWhere.ult (k := none) (ihx ht.1) (ihy ht.2.1) ht
    rw [replaceNode, hr]
    exact rebuild₂_agrees ht (.of_agrees (mkUlt_agrees h.wellTyped) h)
  | and m x y ihx ihy =>
    refine hf.orElse fun hr => ?_
    have h := AgreesWhere.and (k := none) (ihx ht.1) (ihy ht.2.1) ht
    rw [replaceNode, hr]
    exact rebuild₂_agrees ht (.of_agrees (mkAnd_agrees h.wellTyped) h)
  | or m x y ihx ihy =>
    refine hf.orElse fun hr => ?_
    have h := AgreesWhere.or (k := none) (ihx ht.1) (ihy ht.2.1) ht
    rw [replaceNode, hr]
    exact rebuild₂_agrees ht (.of_agrees (mkOr_agrees h.wellTyped) h)
  | add m x y ihx ihy =>
    refine hf.orElse fun hr => ?_
    have h := AgreesWhere.add (k := none) (ihx ht.1) (ihy ht.2.1) ht
    rw [replaceNode, hr]
    exact rebuild₂_agrees ht (.of_agrees (mkAdd_agrees h.wellTyped) h)
  | select m c x y ihc ihx ihy =>
    refine hf.orElse fun hr => ?_
    have h := AgreesWhere.select (k := none) (ihc ht.1) (ihx ht.2.1) (ihy ht.2.2.1) ht
    rw [replaceNode, hr]
    exact rebuild₃_agrees ht (.of_agrees (mkSelect_agrees h.wellTyped) h)

/-- Replacing by a table whose entries agree gives a term that agrees. -/
theorem replace_agrees {table : Replacements} {t : Node}
    (hf : Replaces P fun e => table[e]?) (ht : t.WellTyped) :
    AgreesWhere P (t.replace table) t :=
  replaceNode_agrees hf ht

/-- A table of one entry. -/
theorem getElem?_single {e d : Expr} {r u : Node}
    (h : ((∅ : Replacements).insert e r)[d]? = some u) : e = d ∧ r = u := by
  rw [Std.ExtTreeMap.getElem?_insert] at h
  split at h
  · next hc => exact ⟨Std.LawfulEqCmp.compare_eq_iff_eq.mp hc, Option.some.inj h⟩
  · simp at h

/-- A table of one entry replaces by what agrees if its entry does. -/
theorem Replaces.single {e : Expr} {r : Node} (h : AgreesWhere P r e) :
    Replaces P fun d => ((∅ : Replacements).insert e r)[d]? := by
  intro d u hd
  obtain ⟨rfl, rfl⟩ := getElem?_single hd
  exact h

end Term

end PmemPaths.Symbolic
