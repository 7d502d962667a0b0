import Mathlib.Algebra.GroupWithZero.Nat
import PmemPaths.Symbolic.Term

/-!
# What terms stand for

Under an assignment, which says what the symbolic arrays hold, every term stands
for a number (`Term.value`).  Sums wrap at the width of the term, comparisons are
of unsigned numbers, and a truth value is a number of one bit.

A term is *well typed* when its numbers fit, operands that are compared, added or
chosen from have one width, and operands of connectives have one bit.  The value
of a well-typed term fits its width (`WellTyped.value_lt`).

Marks have no meaning: a term has the value of the expression it stands for.
-/

namespace PmemPaths.Symbolic

/-- What the symbolic arrays hold. -/
abbrev Assignment := SymbolicArray → Nat → BitVec 8

namespace Term

variable {ι : Type}

/-- The number a term stands for. -/
def value (σ : Assignment) : Term ι → Nat
  | constant _ n _ => n
  | read _ a i => (σ a i).toNat
  | eq _ x y => (decide (x.value σ = y.value σ)).toNat
  | ult _ x y => (decide (x.value σ < y.value σ)).toNat
  | and _ x y => x.value σ &&& y.value σ
  | or _ x y => x.value σ ||| y.value σ
  | not _ x => 1 - x.value σ
  | add _ x y => (x.value σ + y.value σ) % 2 ^ x.width
  | select _ c x y => if c.value σ = 1 then x.value σ else y.value σ

def Holds (σ : Assignment) (t : Term ι) : Prop := t.value σ = 1

instance (σ : Assignment) (t : Term ι) : Decidable (t.Holds σ) :=
  inferInstanceAs (Decidable (t.value σ = 1))

/-- An equation holds if both sides stand for the same number. -/
theorem holds_eq {σ : Assignment} {m : ι} {x y : Term ι} :
    (eq m x y).Holds σ ↔ x.value σ = y.value σ := by
  simp [Holds, value]

/-- The widths of a term fit together.  Numbers have between one and 64 bits. -/
def WellTyped : Term ι → Prop
  | constant _ n w => 1 ≤ w ∧ w ≤ 64 ∧ n < 2 ^ w
  | read _ _ _ => True
  | eq _ x y | ult _ x y | add _ x y => x.WellTyped ∧ y.WellTyped ∧ x.width = y.width
  | and _ x y | or _ x y =>
    x.WellTyped ∧ y.WellTyped ∧ x.width = boolWidth ∧ y.width = boolWidth
  | not _ x => x.WellTyped ∧ x.width = boolWidth
  | select _ c x y =>
    c.WellTyped ∧ x.WellTyped ∧ y.WellTyped ∧ c.width = boolWidth ∧ x.width = y.width

instance decidableWellTyped : (t : Term ι) → Decidable t.WellTyped
  | constant _ n w => inferInstanceAs (Decidable (1 ≤ w ∧ w ≤ 64 ∧ n < 2 ^ w))
  | read _ _ _ => inferInstanceAs (Decidable True)
  | eq _ x y | ult _ x y | add _ x y =>
    have := decidableWellTyped x
    have := decidableWellTyped y
    inferInstanceAs (Decidable (x.WellTyped ∧ y.WellTyped ∧ x.width = y.width))
  | and _ x y | or _ x y =>
    have := decidableWellTyped x
    have := decidableWellTyped y
    inferInstanceAs
      (Decidable (x.WellTyped ∧ y.WellTyped ∧ x.width = boolWidth ∧ y.width = boolWidth))
  | not _ x =>
    have := decidableWellTyped x
    inferInstanceAs (Decidable (x.WellTyped ∧ x.width = boolWidth))
  | select _ c x y =>
    have := decidableWellTyped c
    have := decidableWellTyped x
    have := decidableWellTyped y
    inferInstanceAs (Decidable
      (c.WellTyped ∧ x.WellTyped ∧ y.WellTyped ∧ c.width = boolWidth ∧ x.width = y.width))

/-- A well-typed term of a width. -/
structure Typed (t : Term ι) (w : Nat) : Prop where
  wellTyped : t.WellTyped
  width_eq : t.width = w

/-- A constraint is a well-typed truth value. -/
abbrev IsConstraint (t : Term ι) : Prop := t.Typed boolWidth

/-! ## Marks -/

@[simp] theorem width_plain (t : Term ι) : t.plain.width = t.width := by
  induction t <;> simp_all [plain, width]

/-- A mark has no meaning. -/
@[simp] theorem value_plain (σ : Assignment) (t : Term ι) : t.plain.value σ = t.value σ := by
  induction t <;> simp_all [plain, value]

@[simp] theorem wellTyped_plain (t : Term ι) : t.plain.WellTyped ↔ t.WellTyped := by
  induction t <;> simp_all [plain, WellTyped]

theorem typed_plain {t : Term ι} {w : Nat} : t.plain.Typed w ↔ t.Typed w :=
  ⟨fun h => ⟨(wellTyped_plain t).mp h.1, width_plain t ▸ h.2⟩,
    fun h => ⟨(wellTyped_plain t).mpr h.1, (width_plain t).trans h.2⟩⟩

/-! ## Values fit -/

theorem toNat_decide_lt_two (p : Prop) [Decidable p] : (decide p).toNat < 2 := by
  cases decide p <;> simp

/-- The value of a well-typed term fits its width, by induction on the term. -/
theorem WellTyped.value_lt {t : Term ι} (h : t.WellTyped) (σ : Assignment) :
    t.value σ < 2 ^ t.width := by
  induction t with
  | constant _ n w => exact h.2.2
  | read _ a i => exact (σ a i).isLt
  | eq _ x y => exact toNat_decide_lt_two _
  | ult _ x y => exact toNat_decide_lt_two _
  | and _ x y _ ihy =>
    obtain ⟨_, hy, _, hwy⟩ := h
    have := ihy hy
    rw [hwy] at this
    exact Nat.and_lt_two_pow (n := 1) _ this
  | or _ x y ihx ihy =>
    obtain ⟨hx, hy, hwx, hwy⟩ := h
    have h₁ := ihx hx
    have h₂ := ihy hy
    rw [hwx] at h₁
    rw [hwy] at h₂
    exact Nat.or_lt_two_pow (n := 1) h₁ h₂
  | not _ x =>
    show 1 - x.value σ < 2
    omega
  | add _ x y => exact Nat.mod_lt _ (Nat.two_pow_pos _)
  | select _ c x y _ ihx ihy =>
    obtain ⟨_, hx, hy, _, hw⟩ := h
    rw [value]
    split
    · exact ihx hx
    · rw [width, hw]
      exact ihy hy

/-- A truth value is 0 or 1. -/
theorem WellTyped.value_lt_two {t : Term ι} (h : t.WellTyped) (hw : t.width = boolWidth)
    (σ : Assignment) : t.value σ < 2 := by
  have hlt := h.value_lt σ
  rwa [hw] at hlt

end Term

end PmemPaths.Symbolic
