/-!
# Identities of values, functions and blocks

A module numbers its values, its functions and its blocks, each kind from zero.
An `Id` is such a number together with the kind it counts, so a block is never
taken for a value.  Ids are ordered by their numbers, and the order is lawful:
sets and tables keyed by ids are equal when they have the same members.
-/

namespace PmemPaths.Ir

/-- What an `Id` counts. -/
inductive Numbered where
  | value
  | function
  | block

/-- The number of a value, a function or a block. -/
structure Id (k : Numbered) where
  /-- The position in the module's table of that kind. -/
  index : Nat
deriving DecidableEq, Hashable, Repr, Inhabited

/-- The number of a value: an instruction, argument, global, function address or constant. -/
abbrev ValueId := Id .value

/-- The number of a function. -/
abbrev FunctionId := Id .function

/-- The number of a block, counted over the whole module. -/
abbrev BlockId := Id .block

namespace Id

variable {k : Numbered}

instance : Ord (Id k) := ⟨fun a b => compare a.index b.index⟩

theorem compare_eq (a b : Id k) : compare a b = compare a.index b.index := rfl

instance : Std.TransOrd (Id k) where
  eq_swap {a b} := by
    rw [compare_eq, compare_eq b a]
    exact Std.OrientedOrd.eq_swap
  isLE_trans {a b c} h₁ h₂ := by
    rw [compare_eq] at *
    exact Std.TransOrd.isLE_trans h₁ h₂

instance : Std.LawfulEqOrd (Id k) where
  eq_of_compare {a b} h := by
    rw [compare_eq] at h
    cases a
    cases b
    exact congrArg Id.mk (Std.LawfulEqOrd.eq_of_compare h)

end Id

/-- The text of a value's number, `v3`. -/
def valueText (v : ValueId) : String := "v" ++ toString v.index

/-- The text of a function's number, `f0`. -/
def functionText (f : FunctionId) : String := "f" ++ toString f.index

end PmemPaths.Ir
