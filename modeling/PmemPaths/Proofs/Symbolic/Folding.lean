import PmemPaths.Proofs.Symbolic.Value
import PmemPaths.Symbolic.Fold

/-!
# Folding keeps the meaning

A folding constructor gives a term that may be any of several: a constant, one of
its operands, the plain node.  Whatever it gives *agrees* with the plain node: it
is well typed, has its width, and has its value under every assignment.
-/

namespace PmemPaths.Symbolic.Term

variable {ι : Type} {m : ι} {t u x y c : Term ι}

/-- A term agrees with another when it is well typed and has its width and value. -/
structure Agrees (t u : Term ι) : Prop where
  wellTyped : t.WellTyped
  width_eq : t.width = u.width
  value_eq : ∀ σ, t.value σ = u.value σ

theorem WellTyped.agrees (h : t.WellTyped) : t.Agrees t := ⟨h, rfl, fun _ => rfl⟩

theorem Agrees.trans {v : Term ι} (h : t.Agrees u) (h' : u.Agrees v) : t.Agrees v :=
  ⟨h.wellTyped, h.width_eq.trans h'.width_eq, fun σ => (h.value_eq σ).trans (h'.value_eq σ)⟩

/-! ## What the tests tell -/

theorem constant?_eq_some {n : Nat} (h : t.constant? = some n) : ∃ m w, t = constant m n w := by
  cases t with
  | constant m n' w =>
    obtain rfl : n' = n := by simpa [constant?] using h
    exact ⟨m, w, rfl⟩
  | _ => simp [constant?] at h

theorem isTrue_value (h : t.isTrue = true) (σ : Assignment) : t.value σ = 1 := by
  cases t with
  | constant m n w =>
    simp only [isTrue, Bool.and_eq_true, decide_eq_true_eq] at h
    exact h.1
  | _ => simp [isTrue] at h

theorem isFalse_value (h : t.isFalse = true) (σ : Assignment) : t.value σ = 0 := by
  cases t with
  | constant m n w =>
    simp only [isFalse, Bool.and_eq_true, decide_eq_true_eq] at h
    exact h.1
  | _ => simp [isFalse] at h

/-- Terms that look alike have one value. -/
theorem value_of_plain_eq (h : x.plain = y.plain) (σ : Assignment) : x.value σ = y.value σ := by
  rw [← value_plain σ x, h, value_plain]

theorem isNegationOf_value (h : x.isNegationOf y.plain = true) (σ : Assignment) :
    x.value σ = 1 - y.value σ := by
  cases x with
  | not m z =>
    simp only [isNegationOf, decide_eq_true_eq] at h
    rw [value, value_of_plain_eq h]
  | _ => simp [isNegationOf] at h

/-- Of two truth values that negate each other one holds. -/
theorem complementary_value (hx : x.WellTyped) (hy : y.WellTyped) (hwx : x.width = boolWidth)
    (hwy : y.width = boolWidth) (h : complementary x y = true) (σ : Assignment) :
    x.value σ = 1 - y.value σ := by
  rw [complementary, Bool.or_eq_true] at h
  have h₁ := hx.value_lt_two hwx σ
  have h₂ := hy.value_lt_two hwy σ
  rcases h with h | h
  · exact isNegationOf_value h σ
  · have := isNegationOf_value h σ
    omega

/-! ## Constants -/

theorem mkConstant_wellTyped {n w : Nat} (h : 1 ≤ w ∧ w ≤ 64) : (mkConstant m n w).WellTyped := by
  refine ⟨h.1, h.2, ?_⟩
  rw [truncate, Nat.min_eq_left h.2]
  exact Nat.mod_lt _ (Nat.two_pow_pos w)

theorem mkConstant_value {n w : Nat} (h : w ≤ 64) (σ : Assignment) :
    (mkConstant m n w).value σ = n % 2 ^ w := by
  rw [mkConstant, value, truncate, Nat.min_eq_left h]
  rfl

theorem mkBool_wellTyped (b : Bool) : (mkBool m b).WellTyped := mkConstant_wellTyped (by decide)

theorem mkBool_value (b : Bool) (σ : Assignment) : (mkBool m b).value σ = b.toNat := by
  rw [mkBool, mkConstant_value (by decide)]
  cases b <;> rfl

/-- A truth value that is known may be written down. -/
theorem mkBool_agrees {b : Bool} (hw : t.width = boolWidth) (h : ∀ σ, t.value σ = b.toNat) :
    (mkBool m b).Agrees t :=
  ⟨mkBool_wellTyped b, hw.symm, fun σ => (mkBool_value b σ).trans (h σ).symm⟩

/-! ## Connectives -/

/-- A negation of a constant is known, and two negations cancel. -/
theorem mkNot_agrees (h : (not m x).WellTyped) : (mkNot m x).Agrees (not m x) := by
  obtain ⟨hx, hw⟩ := h
  cases x with
  | constant k n w =>
    refine mkBool_agrees rfl fun σ => ?_
    have hlt : n < 2 := hx.value_lt_two hw σ
    show 1 - n = (decide (n = 0)).toNat
    rcases Nat.lt_or_ge 0 n with hn | hn
    · obtain rfl : n = 1 := by omega
      rfl
    · obtain rfl : n = 0 := by omega
      rfl
  | not k z =>
    refine ⟨hx.1, hx.2, fun σ => ?_⟩
    have hlt := hx.1.value_lt_two hx.2 σ
    show z.value σ = 1 - (1 - z.value σ)
    omega
  | _ => exact WellTyped.agrees ⟨hx, hw⟩

/-- A false operand makes a conjunction false, and so do two that negate each other.  A true
or repeated one drops out. -/
theorem mkAnd_agrees (h : (and m x y).WellTyped) : (mkAnd m x y).Agrees (and m x y) := by
  obtain ⟨hx, hy, hwx, hwy⟩ := h
  have h₁ := fun σ => hx.value_lt_two hwx σ
  have h₂ := fun σ => hy.value_lt_two hwy σ
  rw [mkAnd]
  split
  · next hfalse =>
    refine mkBool_agrees rfl fun σ => ?_
    show x.value σ &&& y.value σ = 0
    rw [Bool.or_eq_true, Bool.or_eq_true] at hfalse
    rcases hfalse with (hf | hf) | hf
    · rw [isFalse_value hf, Nat.zero_and]
    · rw [isFalse_value hf, Nat.and_zero]
    · have := complementary_value hx hy hwx hwy hf σ
      have := h₁ σ
      rcases Nat.lt_or_ge 0 (y.value σ) with hn | hn
      · rw [show x.value σ = 0 by omega, Nat.zero_and]
      · rw [show y.value σ = 0 by omega, Nat.and_zero]
  split
  · next ht =>
    refine ⟨hy, hwy, fun σ => ?_⟩
    have := h₂ σ
    show y.value σ = x.value σ &&& y.value σ
    rw [isTrue_value ht, Nat.one_and_eq_mod_two]
    omega
  split
  · next ht =>
    refine ⟨hx, hwx, fun σ => ?_⟩
    show x.value σ = x.value σ &&& y.value σ
    simp only [Bool.or_eq_true, decide_eq_true_eq] at ht
    rcases ht with ht | ht
    · have := h₁ σ
      rw [isTrue_value ht, Nat.and_one_is_mod]
      omega
    · rw [value_of_plain_eq ht, Nat.and_self]
  · exact WellTyped.agrees ⟨hx, hy, hwx, hwy⟩

theorem mkOr_agrees (h : (or m x y).WellTyped) : (mkOr m x y).Agrees (or m x y) := by
  obtain ⟨hx, hy, hwx, hwy⟩ := h
  have h₁ := fun σ => hx.value_lt_two hwx σ
  have h₂ := fun σ => hy.value_lt_two hwy σ
  have hor : ∀ a < 2, ∀ b < 2, a = 1 ∨ b = 1 → a ||| b = 1 := by decide
  rw [mkOr]
  split
  · next htrue =>
    refine mkBool_agrees rfl fun σ => ?_
    rw [Bool.or_eq_true, Bool.or_eq_true] at htrue
    refine hor _ (h₁ σ) _ (h₂ σ) ?_
    rcases htrue with (ht | ht) | ht
    · exact .inl (isTrue_value ht σ)
    · exact .inr (isTrue_value ht σ)
    · have := complementary_value hx hy hwx hwy ht σ
      have := h₂ σ
      omega
  split
  · next hf =>
    refine ⟨hy, hwy, fun σ => ?_⟩
    show y.value σ = x.value σ ||| y.value σ
    rw [isFalse_value hf, Nat.zero_or]
  split
  · next hf =>
    refine ⟨hx, hwx, fun σ => ?_⟩
    show x.value σ = x.value σ ||| y.value σ
    simp only [Bool.or_eq_true, decide_eq_true_eq] at hf
    rcases hf with hf | hf
    · rw [isFalse_value hf, Nat.or_zero]
    · rw [value_of_plain_eq hf, Nat.or_self]
  · exact WellTyped.agrees ⟨hx, hy, hwx, hwy⟩

/-! ## Comparisons -/

/-- A truth value is equal to true if it holds, and to false if it does not. -/
theorem decide_eq_one {n : Nat} (h : n < 2) : (decide (1 = n)).toNat = n := by
  rcases Nat.lt_or_ge 0 n with hn | hn
  · obtain rfl : n = 1 := by omega
    rfl
  · obtain rfl : n = 0 := by omega
    rfl

theorem decide_eq_zero {n : Nat} (h : n < 2) : (decide (0 = n)).toNat = 1 - n := by
  rcases Nat.lt_or_ge 0 n with hn | hn
  · obtain rfl : n = 1 := by omega
    rfl
  · obtain rfl : n = 0 := by omega
    rfl

theorem mkEqOrdered_agrees (h : (eq m x y).WellTyped) : (mkEqOrdered m x y).Agrees (eq m x y) := by
  obtain ⟨hx, hy, hw⟩ := h
  rw [mkEqOrdered]
  split
  · next he =>
    refine mkBool_agrees rfl fun σ => ?_
    simp [value, value_of_plain_eq he]
  split
  · next ht =>
    simp only [Bool.and_eq_true, decide_eq_true_eq] at ht
    refine ⟨hy, ht.1, fun σ => ?_⟩
    rw [value, isTrue_value ht.2, decide_eq_one (hy.value_lt_two ht.1 σ)]
  split
  · next hf =>
    simp only [Bool.and_eq_true, decide_eq_true_eq] at hf
    refine (mkNot_agrees ⟨hy, hf.1⟩).trans ⟨⟨hy, hf.1⟩, rfl, fun σ => ?_⟩
    simp only [value, isFalse_value hf.2]
    exact (decide_eq_zero (hy.value_lt_two hf.1 σ)).symm
  · exact WellTyped.agrees ⟨hx, hy, hw⟩

/-- The sides of an equation may change places, so the constant can come first. -/
theorem eq_comm_agrees (h : (eq m x y).WellTyped) : (eq m y x).Agrees (eq m x y) := by
  obtain ⟨hx, hy, hw⟩ := h
  refine ⟨⟨hy, hx, hw.symm⟩, rfl, fun σ => ?_⟩
  simp only [value, eq_comm]

theorem mkEq_agrees (h : (eq m x y).WellTyped) : (mkEq m x y).Agrees (eq m x y) := by
  rw [mkEq]
  split
  · next a b ha hb =>
    obtain ⟨_, _, rfl⟩ := constant?_eq_some ha
    obtain ⟨_, _, rfl⟩ := constant?_eq_some hb
    exact mkBool_agrees rfl fun _ => rfl
  · -- The constant comes first, which does not matter for an equality.
    have hc := eq_comm_agrees h
    exact (mkEqOrdered_agrees hc.wellTyped).trans hc
  · exact mkEqOrdered_agrees h

theorem mkUlt_agrees (h : (ult m x y).WellTyped) : (mkUlt m x y).Agrees (ult m x y) := by
  rw [mkUlt]
  split
  · next a b ha hb =>
    obtain ⟨_, _, rfl⟩ := constant?_eq_some ha
    obtain ⟨_, _, rfl⟩ := constant?_eq_some hb
    exact mkBool_agrees rfl fun _ => rfl
  · next hb _ =>
    obtain ⟨_, _, rfl⟩ := constant?_eq_some hb
    exact mkBool_agrees rfl fun σ => by simp [value]
  · split
    · next he => exact mkBool_agrees rfl fun σ => by simp [value, value_of_plain_eq he]
    · exact h.agrees

/-! ## Sums and choices -/

theorem add_comm_agrees (h : (add m x y).WellTyped) : (add m y x).Agrees (add m x y) := by
  obtain ⟨hx, hy, hw⟩ := h
  refine ⟨⟨hy, hx, hw.symm⟩, hw.symm, fun σ => ?_⟩
  simp only [value, Nat.add_comm, hw]

/-- Adding nothing gives the other operand. -/
theorem zero_add_agrees {k : ι} {w : Nat} (h : (add m (constant k 0 w) y).WellTyped) :
    y.Agrees (add m (constant k 0 w) y) := by
  obtain ⟨-, hy, hw⟩ := h
  refine ⟨hy, hw.symm, fun σ => ?_⟩
  show y.value σ = (0 + y.value σ) % 2 ^ (constant k 0 w).width
  rw [Nat.zero_add, hw, Nat.mod_eq_of_lt (hy.value_lt σ)]

/-- A sum of numbers of at most 64 bits may wrap at 64 bits before it wraps at its
width. -/
theorem mkConstant_add_agrees {k l : ι} {a b v w : Nat}
    (h : (add m (constant k a v) (constant l b w)).WellTyped) :
    (mkConstant m ((a + b) % 0x10000000000000000) v).Agrees
      (add m (constant k a v) (constant l b w)) := by
  obtain ⟨⟨hpos, hle, -⟩, -, -⟩ := h
  refine ⟨mkConstant_wellTyped ⟨hpos, hle⟩, rfl, fun σ => ?_⟩
  rw [mkConstant_value hle]
  exact Nat.mod_mod_of_dvd _ (Nat.pow_dvd_pow 2 hle)

theorem mkAdd_agrees (h : (add m x y).WellTyped) : (mkAdd m x y).Agrees (add m x y) := by
  rw [mkAdd]
  split
  · next a b ha hb =>
    obtain ⟨_, _, rfl⟩ := constant?_eq_some ha
    obtain ⟨_, _, rfl⟩ := constant?_eq_some hb
    exact mkConstant_add_agrees h
  · next ha _ =>
    obtain ⟨_, _, rfl⟩ := constant?_eq_some ha
    exact zero_add_agrees h
  · next hb =>
    obtain ⟨_, _, rfl⟩ := constant?_eq_some hb
    have hc := add_comm_agrees h
    exact (zero_add_agrees hc.wellTyped).trans hc
  · exact add_comm_agrees h
  · exact h.agrees

/-- A choice has the value of what is chosen, of whatever widths it is made. -/
theorem mkSelect_value (σ : Assignment) :
    (mkSelect m c x y).value σ = if c.value σ = 1 then x.value σ else y.value σ := by
  rw [mkSelect]
  split
  · next ht => rw [isTrue_value ht, if_pos rfl]
  split
  · next hf =>
    simp only [Bool.or_eq_true, decide_eq_true_eq] at hf
    rcases hf with hf | hf
    · rw [isFalse_value hf, if_neg (by decide)]
    · rw [value_of_plain_eq hf, ite_self]
  · rfl

theorem mkSelect_agrees (h : (select m c x y).WellTyped) :
    (mkSelect m c x y).Agrees (select m c x y) := by
  obtain ⟨hc, hx, hy, hwc, hw⟩ := h
  refine ⟨?_, ?_, fun σ => mkSelect_value σ⟩
  · rw [mkSelect]
    split
    · exact hx
    split
    · exact hy
    · exact ⟨hc, hx, hy, hwc, hw⟩
  · rw [mkSelect]
    split
    · rfl
    split
    · exact hw.symm
    · rfl

end PmemPaths.Symbolic.Term
