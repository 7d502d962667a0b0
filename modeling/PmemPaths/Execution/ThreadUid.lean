/-!
# Thread identities

A thread is known by its process and its number there.  Threads are ordered by
process first, and the order is lawful.
-/

namespace PmemPaths.Execution

/-- The identity of a thread. -/
structure ThreadUid where
  /-- Its process. -/
  pid : Nat
  /-- Its number in the process. -/
  tid : Nat
deriving DecidableEq, Hashable, Repr

namespace ThreadUid

/-- The thread every state starts with. -/
def main : ThreadUid := ⟨1, 0⟩

/-- The text of an identity, `1:0`. -/
def text (u : ThreadUid) : String := toString u.pid ++ ":" ++ toString u.tid

instance : Ord ThreadUid := ⟨fun a b => (compare a.pid b.pid).then (compare a.tid b.tid)⟩

theorem compare_eq (a b : ThreadUid) :
    compare a b = (compare a.pid b.pid).then (compare a.tid b.tid) := rfl

instance : Std.TransOrd ThreadUid where
  eq_swap {a b} := by
    simp only [compare_eq, Std.OrientedOrd.eq_swap (a := a.pid),
      Std.OrientedOrd.eq_swap (a := a.tid), Ordering.swap_then]
  isLE_trans {a b c} h₁ h₂ := by
    simp only [compare_eq, Nat.compare_eq_ite_lt] at *
    grind [Ordering.then, Ordering.isLE]

instance : Std.LawfulEqOrd ThreadUid where
  eq_of_compare {a b} h := by
    cases a
    cases b
    simp only [compare_eq, Ordering.then_eq_eq, Std.LawfulEqOrd.compare_eq_iff_eq] at h
    simp [h.1, h.2]

end ThreadUid

end PmemPaths.Execution
