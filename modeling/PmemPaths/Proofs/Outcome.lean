import PmemPaths.Outcome

/-!
# Results that came out

An operation that may abort or fail gives a result exactly when each of its parts
does.  These lemmas take such an operation apart, so that no other proof has to
look into it.
-/

namespace PmemPaths

variable {ε α β : Type}

theorem bind_eq_ok {x : Except ε α} {f : α → Except ε β} {b : β} :
    x >>= f = .ok b ↔ ∃ a, x = .ok a ∧ f a = .ok b := by
  cases x with
  | error e => simp [bind, Except.bind]
  | ok a => simp [bind, Except.bind]

/-- What every round of a loop preserves, the loop preserves. -/
theorem foldlM_preserves {P : α → Prop} {f : α → β → Except ε α} {bs : List β}
    (hf : ∀ b ∈ bs, ∀ a a', P a → f a b = .ok a' → P a') {a a' : α} (ha : P a)
    (h : bs.foldlM f a = .ok a') : P a' := by
  induction bs generalizing a with
  | nil =>
    cases h
    exact ha
  | cons b bs ih =>
    rw [List.foldlM_cons, bind_eq_ok] at h
    obtain ⟨c, hc, h⟩ := h
    have hc := hf b List.mem_cons_self a c ha hc
    exact ih (fun b hb => hf b (List.mem_cons_of_mem _ hb)) hc h

/-- What is done for each of some things comes out when it comes out for each. -/
theorem forM_eq_ok {f : β → Except ε Unit} {bs : List β} :
    bs.forM f = .ok () ↔ ∀ b ∈ bs, f b = .ok () := by
  induction bs with
  | nil => simp [pure, Except.pure]
  | cons b bs ih =>
    rw [List.forM_eq_forM, List.forM_cons, bind_eq_ok, List.forall_mem_cons, ← ih]
    exact ⟨fun ⟨_, hb, hbs⟩ => ⟨hb, hbs⟩, fun ⟨hb, hbs⟩ => ⟨_, hb, hbs⟩⟩

end PmemPaths
