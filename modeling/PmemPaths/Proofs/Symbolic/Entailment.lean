import PmemPaths.Proofs.Symbolic.Replacement
import PmemPaths.Symbolic.PathCondition

/-!
# Path conditions keep their meaning

A path condition holds under an assignment when all its constraints do.  Adding a
constraint gives a path condition that holds exactly where the old one and the
constraint do, or aborts, and then there is no such assignment
(`PathCondition.add_means`).

What is replaced on the way is replaced by virtue of a constraint that stays, so
the replacement agrees wherever the path condition holds.  While the constraints
are rewritten one after the other, only part of them is stored.  The invariant of
that loop speaks of the assignments under which the equality holds that caused
it, which is stored last.

A fact that is not stored can be used in the same way.  Then the constraints keep their
meaning only where the fact holds, as a term that is simplified keeps its value only where
the path condition does (`PathCondition.simplified_keeps_meaning`).
-/

namespace PmemPaths.Symbolic

open Term

/-! ## Values of tables -/

theorem values_eq_foldr {α β : Type} [Ord α] [Std.TransOrd α] (t : Std.ExtTreeMap α β) :
    t.values = t.foldr (fun _ b l => b :: l) [] := by
  rcases t with ⟨⟨t⟩⟩
  induction t using Quotient.ind
  rfl

/-- The values of a table are those of its entries. -/
theorem values_eq_map_toList {α β : Type} [Ord α] [Std.TransOrd α] (t : Std.ExtTreeMap α β) :
    t.values = t.toList.map (·.2) := by
  rw [values_eq_foldr, Std.ExtTreeMap.foldr_eq_foldr_toList]
  induction t.toList with
  | nil => rfl
  | cons x xs ih =>
    rw [List.foldr_cons, ih]
    rfl

namespace PathCondition

variable {p q : PathCondition} {t : Node} {σ : Assignment}

/-! ## What is stored -/

theorem mem_toList {e : Expr} : e ∈ p.toList ↔ e ∈ p.constraints := Std.ExtTreeMap.mem_keys

theorem contains_iff {e : Expr} : p.contains e = true ↔ e ∈ p.toList :=
  Std.ExtTreeMap.contains_iff_mem.trans mem_toList.symm

theorem mem_terms : t ∈ p.terms ↔ p.constraints[t.plain]? = some t := by
  rw [terms, values_eq_map_toList, List.mem_map]
  constructor
  · rintro ⟨⟨e, u⟩, hm, rfl⟩
    have hu := Std.ExtTreeMap.mem_toList_iff_getElem?_eq_some.mp hm
    rwa [p.plain_eq e u hu]
  · intro h
    exact ⟨(t.plain, t), Std.ExtTreeMap.mem_toList_iff_getElem?_eq_some.mpr h, rfl⟩

/-- Every constraint is stored as a node that stands for it. -/
theorem mem_toList_iff_terms {e : Expr} : e ∈ p.toList ↔ ∃ t ∈ p.terms, t.plain = e := by
  rw [mem_toList, Std.ExtTreeMap.mem_iff_isSome_getElem?, Option.isSome_iff_exists]
  constructor
  · rintro ⟨t, ht⟩
    have he := p.plain_eq e t ht
    exact ⟨t, mem_terms.mpr (he ▸ ht), he⟩
  · rintro ⟨t, ht, rfl⟩
    exact ⟨t, mem_terms.mp ht⟩

theorem mem_toList_insert {e : Expr} : e ∈ (p.insert t).toList ↔ e = t.plain ∨ e ∈ p.toList := by
  rw [mem_toList, mem_toList, eq_comm]
  exact (Std.ExtTreeMap.mem_insertIfNew (t := p.constraints)).trans
    (or_congr_left Std.LawfulEqCmp.compare_eq_iff_eq)

theorem mem_toList_put {e : Expr} : e ∈ (p.put t).toList ↔ e = t.plain ∨ e ∈ p.toList := by
  rw [mem_toList, mem_toList, eq_comm]
  exact (Std.ExtTreeMap.mem_insert (t := p.constraints)).trans
    (or_congr_left Std.LawfulEqCmp.compare_eq_iff_eq)

theorem mem_toList_empty {e : Expr} : e ∉ (∅ : PathCondition).toList := by
  rw [mem_toList]
  exact Std.ExtTreeMap.not_mem_empty

theorem mem_toList_foldl_put {e : Expr} (ts : List Node) :
    e ∈ (ts.foldl put p).toList ↔ (∃ t ∈ ts, t.plain = e) ∨ e ∈ p.toList := by
  induction ts generalizing p with
  | nil => simp
  | cons t ts ih =>
    rw [List.foldl_cons, ih, mem_toList_put, eq_comm (a := e), ← or_assoc]
    refine or_congr_left ?_
    rw [or_comm]
    simp

theorem mem_toList_ofList {e : Expr} (ts : List Node) :
    e ∈ (ofList ts).toList ↔ ∃ t ∈ ts, t.plain = e :=
  (mem_toList_foldl_put ts).trans (or_iff_left mem_toList_empty)

/-! ## What it means -/

def Holds (σ : Assignment) (p : PathCondition) : Prop := ∀ e ∈ p.toList, e.Holds σ

/-- All constraints are well-typed truth values. -/
def WellTyped (p : PathCondition) : Prop := ∀ e ∈ p.toList, e.IsConstraint

theorem holds_plain : t.plain.Holds σ ↔ t.Holds σ := by
  rw [Term.Holds, value_plain, Term.Holds]

theorem holds_iff_terms : p.Holds σ ↔ ∀ t ∈ p.terms, t.Holds σ := by
  constructor
  · intro h t ht
    exact holds_plain.mp (h _ (mem_toList_iff_terms.mpr ⟨t, ht, rfl⟩))
  · intro h e he
    obtain ⟨t, ht, rfl⟩ := mem_toList_iff_terms.mp he
    exact holds_plain.mpr (h t ht)

theorem WellTyped.of_terms (h : p.WellTyped) (ht : t ∈ p.terms) : t.IsConstraint :=
  typed_plain.mp (h _ (mem_toList_iff_terms.mpr ⟨t, ht, rfl⟩))

theorem holds_empty : (∅ : PathCondition).Holds σ := fun _ he => absurd he mem_toList_empty

theorem wellTyped_empty : (∅ : PathCondition).WellTyped := fun _ he => absurd he mem_toList_empty

theorem holds_insert : (p.insert t).Holds σ ↔ p.Holds σ ∧ t.Holds σ := by
  simp only [Holds, mem_toList_insert, forall_eq_or_imp, holds_plain, and_comm]

theorem WellTyped.insert (h : p.WellTyped) (ht : t.IsConstraint) : (p.insert t).WellTyped := by
  intro e he
  rcases mem_toList_insert.mp he with rfl | he
  · exact typed_plain.mpr ht
  · exact h e he

/-- What came of a change to a path condition: it is well typed and holds where it
should, or it should hold nowhere and the change ends with the complaint of that. -/
def Means (r : Except Abort PathCondition) (P : Assignment → Prop) : Prop :=
  match r with
  | .ok q => q.WellTyped ∧ ∀ σ, q.Holds σ ↔ P σ
  | .error a => a = .falseConstraint ∧ ∀ σ, ¬ P σ

theorem Means.congr {r : Except Abort PathCondition} {P Q : Assignment → Prop} (h : Means r P)
    (hPQ : ∀ σ, P σ ↔ Q σ) : Means r Q := by
  obtain rfl : P = Q := funext fun σ => propext (hPQ σ)
  exact h

theorem Means.ok (h : p.WellTyped) : Means (.ok p) (fun σ => p.Holds σ) := ⟨h, fun _ => .rfl⟩

theorem Means.bind {r : Except Abort PathCondition} {f : PathCondition → Except Abort PathCondition}
    {P Q : Assignment → Prop} (h : Means r P)
    (hf : ∀ q, q.WellTyped → Means (f q) (fun σ => q.Holds σ ∧ Q σ)) :
    Means (r >>= f) (fun σ => P σ ∧ Q σ) := by
  rcases r with a | q
  · exact ⟨h.1, fun σ hσ => h.2 σ hσ.1⟩
  · exact (hf q h.1).congr fun σ => and_congr_left' (h.2 σ)

theorem Means.insert {r : Except Abort PathCondition} {P : Assignment → Prop} (h : Means r P)
    (ht : t.IsConstraint) :
    Means (r >>= fun q => .ok (q.insert t)) (fun σ => P σ ∧ t.Holds σ) :=
  h.bind fun _ hq => (Means.ok (WellTyped.insert hq ht)).congr fun _ => holds_insert

/-! ## Replacements by virtue of a constraint -/

/-- Where a constraint holds, what it replaces is replaced by what agrees. -/
theorem replacement_agrees {c : Node} (hc : c.IsConstraint) :
    AgreesWhere (fun σ => c.Holds σ) (replacement c).2 (replacement c).1 := by
  have htrue : AgreesWhere (fun σ => c.Holds σ) (.mkBool none true : Node) c.plain := by
    refine ⟨mkBool_wellTyped true, ?_, fun σ hσ => ?_⟩
    · rw [width_plain, hc.width_eq]
      rfl
    · rw [mkBool_value, value_plain, hσ]
      rfl
  cases c with
  | eq m l r =>
    by_cases hl : l.isConstant = true
    · obtain ⟨hwl, -, hw⟩ := hc.wellTyped
      simp only [replacement, if_pos hl]
      refine ⟨hwl, hw.trans (width_plain r).symm, fun σ hσ => ?_⟩
      rw [value_plain]
      exact holds_eq.mp hσ
    · simp only [replacement, if_neg hl]
      exact htrue
  | _ => exact htrue

theorem getElem?_foldl_insert {γ : Type} (l : List γ) (f : γ → Expr × Node) (table : Replacements)
    {e : Expr} {r : Node}
    (h : (l.foldl (fun table c => table.insert (f c).1 (f c).2) table)[e]? = some r) :
    (∃ c ∈ l, f c = (e, r)) ∨ table[e]? = some r := by
  induction l generalizing table with
  | nil => exact .inr h
  | cons c cs ih =>
    rcases ih _ h with ⟨d, hd, he⟩ | h
    · exact .inl ⟨d, List.mem_cons_of_mem _ hd, he⟩
    · rw [Std.ExtTreeMap.getElem?_insert] at h
      split at h
      · next hc =>
        rw [Std.LawfulEqCmp.compare_eq_iff_eq] at hc
        refine .inl ⟨c, List.mem_cons_self, ?_⟩
        rw [← hc, ← Option.some.inj h]
      · exact .inr h

/-- Every replacement is by virtue of a stored constraint. -/
theorem getElem?_replacements {e : Expr} {r : Node} (h : p.replacements[e]? = some r) :
    ∃ c ∈ p.terms, replacement c = (e, r) := by
  rcases getElem?_foldl_insert p.terms replacement ∅ h with hc | h
  · exact hc
  · simp at h

/-- Where a path condition holds, its replacements agree. -/
theorem replacements_replaces (hp : p.WellTyped) :
    Replaces (fun σ => p.Holds σ) fun e => p.replacements[e]? := by
  intro e r he
  obtain ⟨c, hc, hr⟩ := getElem?_replacements he
  have h := replacement_agrees (hp.of_terms hc)
  rw [hr] at h
  exact ⟨h.wellTyped, h.width_eq, fun σ hσ => h.value_eq σ (holds_iff_terms.mp hσ c hc)⟩

/-- Where a path condition holds, a simplified term agrees with what it was. -/
theorem simplify_agrees (hp : p.WellTyped) (ht : t.WellTyped) :
    AgreesWhere (fun σ => p.Holds σ) (p.simplify t) t := by
  rw [simplify]
  split
  · exact .refl ht
  · exact replace_agrees (replacements_replaces hp) ht

/-! ## Adding -/

/-- A way of adding constraints adds them to the meaning. -/
def AddMeans (add : PathCondition → Node → Except Abort PathCondition) : Prop :=
  ∀ (q : PathCondition) (t : Node), q.WellTyped → t.IsConstraint →
    Means (add q t) (fun σ => q.Holds σ ∧ t.Holds σ)

theorem AgreesWhere.isConstraint {A : Assignment → Prop} {c : Node} (h : AgreesWhere A t c)
    (hc : c.IsConstraint) : t.IsConstraint :=
  ⟨h.wellTyped, h.width_eq.trans hc.width_eq⟩

/-- Rewriting constraints one after the other.  Where the replacement agrees, what
comes out means what was stored already and the constraints that are left. -/
theorem foldlM_replace_means {add : PathCondition → Node → Except Abort PathCondition}
    (hadd : AddMeans add) {A : Assignment → Prop} {table : Replacements}
    (hr : Replaces A fun e => table[e]?) (cs : List Node) (hcs : ∀ c ∈ cs, c.IsConstraint)
    (hq : q.WellTyped) :
    ∃ Q, Means (cs.foldlM (fun q c => if (c.replace table).plain = c.plain then .ok (q.insert c)
        else add q (c.replace table)) q) Q ∧
      ∀ σ, A σ → (Q σ ↔ q.Holds σ ∧ ∀ c ∈ cs, c.Holds σ) := by
  induction cs generalizing q with
  | nil => exact ⟨_, Means.ok hq, fun σ _ => by simp⟩
  | cons c cs ih =>
    have hc := hcs c List.mem_cons_self
    have hrep := replace_agrees hr hc.wellTyped
    have hcs' : ∀ c ∈ cs, c.IsConstraint := fun c hc => hcs c (List.mem_cons_of_mem _ hc)
    -- The next constraint goes in as it is or rewritten, which is the same where
    -- the replacement agrees.
    obtain ⟨R, hR, hRc⟩ : ∃ R, Means (if (c.replace table).plain = c.plain then .ok (q.insert c)
        else add q (c.replace table)) R ∧ ∀ σ, A σ → (R σ ↔ q.Holds σ ∧ c.Holds σ) := by
      split
      · exact ⟨_, Means.ok (hq.insert hc), fun σ _ => holds_insert⟩
      · refine ⟨_, hadd q _ hq (AgreesWhere.isConstraint hrep hc), fun σ hσ => ?_⟩
        rw [Term.Holds, hrep.value_eq σ hσ, Term.Holds]
    rw [List.foldlM_cons]
    rcases hs : (if (c.replace table).plain = c.plain then .ok (q.insert c)
        else add q (c.replace table) : Except Abort PathCondition) with a | q'
    · rw [hs] at hR
      refine ⟨fun σ => R σ ∧ ∀ c ∈ cs, c.Holds σ, ?_, fun σ hσ => ?_⟩
      · exact ⟨hR.1, fun σ hσ => hR.2 σ hσ.1⟩
      · show R σ ∧ _ ↔ _
        rw [hRc σ hσ, List.forall_mem_cons, and_assoc]
    · rw [hs] at hR
      obtain ⟨Q, hQ, hQc⟩ := ih hcs' hR.1
      refine ⟨Q, hQ, fun σ hσ => ?_⟩
      rw [hQc σ hσ, hR.2 σ, hRc σ hσ, List.forall_mem_cons, and_assoc]

/-- Rewriting all constraints keeps the meaning where the replacement agrees. -/
theorem replaceAll_means {add : PathCondition → Node → Except Abort PathCondition}
    (hadd : AddMeans add) {A : Assignment → Prop} {r : Expr × Node}
    (hr : AgreesWhere A r.2 r.1) (hp : p.WellTyped) :
    ∃ Q, Means (replaceAll add p r) Q ∧ ∀ σ, A σ → (Q σ ↔ p.Holds σ) := by
  obtain ⟨Q, hQ, hQp⟩ := foldlM_replace_means hadd (.single hr) p.terms
    (fun c hc => hp.of_terms hc) wellTyped_empty
  refine ⟨Q, hQ, fun σ hσ => ?_⟩
  rw [hQp σ hσ, holds_iff_terms (p := p)]
  exact and_iff_right holds_empty

theorem holds_and {m : Label} {x y : Node} (hx : x.IsConstraint) (hy : y.IsConstraint) :
    (Term.and m x y).Holds σ ↔ x.Holds σ ∧ y.Holds σ := by
  have h : ∀ a < 2, ∀ b < 2, a &&& b = 1 ↔ a = 1 ∧ b = 1 := by decide
  exact h _ (hx.wellTyped.value_lt_two hx.width_eq σ) _ (hy.wellTyped.value_lt_two hy.width_eq σ)

theorem holds_or {m : Label} {x y : Node} (hx : x.IsConstraint) (hy : y.IsConstraint) :
    (Term.or m x y).Holds σ ↔ x.Holds σ ∨ y.Holds σ := by
  have h : ∀ a < 2, ∀ b < 2, a ||| b = 1 ↔ a = 1 ∨ b = 1 := by decide
  exact h _ (hx.wellTyped.value_lt_two hx.width_eq σ) _ (hy.wellTyped.value_lt_two hy.width_eq σ)

/-- Storing a constraint after all others were rewritten by virtue of it. -/
theorem replaceAll_insert_means {add : PathCondition → Node → Except Abort PathCondition}
    (hadd : AddMeans add) {m : Label} {l r : Node} (ht : (Term.eq m l r).IsConstraint)
    (hp : p.WellTyped) :
    Means (replaceAll add p (r.plain, l) >>= fun q => .ok (q.insert (.eq m l r)))
      (fun σ => p.Holds σ ∧ (Term.eq m l r).Holds σ) := by
  obtain ⟨hl, -, hw⟩ := ht.wellTyped
  have hagree : AgreesWhere (fun σ => (Term.eq m l r).Holds σ) l r.plain := by
    refine ⟨hl, hw.trans (width_plain r).symm, fun σ hσ => ?_⟩
    rw [value_plain]
    exact holds_eq.mp hσ
  obtain ⟨Q, hQ, hQp⟩ := replaceAll_means (r := (r.plain, l)) hadd hagree hp
  refine (hQ.insert ht).congr fun σ => ?_
  constructor
  · rintro ⟨hq, he⟩
    exact ⟨(hQp σ he).mp hq, he⟩
  · rintro ⟨h, he⟩
    exact ⟨(hQp σ he).mpr h, he⟩

/-- Adding a simplified constraint adds it to the meaning, however deep the nesting
may go. -/
theorem addWithin_means (n : Nat) : AddMeans (addWithin n) := by
  induction n with
  | zero =>
    intro p t hp ht
    exact (Means.ok (hp.insert ht)).congr fun σ => holds_insert
  | succ n ih =>
    intro p t hp ht
    have hinsert : Means (.ok (p.insert t)) (fun σ => p.Holds σ ∧ t.Holds σ) :=
      (Means.ok (hp.insert ht)).congr fun σ => holds_insert
    cases t with
    | constant m v w =>
      have hlt : v < 2 := ht.wellTyped.value_lt_two ht.width_eq fun _ _ => 0
      rw [addWithin]
      split
      · next hv =>
        refine ⟨rfl, fun σ hσ => ?_⟩
        have : v = 1 := hσ.2
        omega
      · next hv => exact (Means.ok hp).congr fun σ => (and_iff_left (by show v = 1; omega)).symm
    | and m x y =>
      obtain ⟨hx, hy, hwx, hwy⟩ := ht.wellTyped
      rw [addWithin]
      refine ((ih p x hp ⟨hx, hwx⟩).bind fun q hq => ih q y hq ⟨hy, hwy⟩).congr fun σ => ?_
      rw [holds_and ⟨hx, hwx⟩ ⟨hy, hwy⟩, and_assoc]
    | eq m l r =>
      rw [addWithin]
      split
      · exact replaceAll_insert_means ih ht hp
      · exact hinsert
    | _ => exact hinsert

theorem add_means : AddMeans add := by
  intro p t hp ht
  have h := simplify_agrees hp ht.wellTyped
  refine (addWithin_means _ p _ hp (AgreesWhere.isConstraint h ht)).congr fun σ => ?_
  refine and_congr_right fun hσ => ?_
  rw [Term.Holds, h.value_eq σ hσ, Term.Holds]

theorem foldlM_add_means (ts : List Node) (hts : ∀ t ∈ ts, t.IsConstraint) (hp : p.WellTyped) :
    Means (ts.foldlM add p) (fun σ => p.Holds σ ∧ ∀ t ∈ ts, t.Holds σ) := by
  induction ts generalizing p with
  | nil => exact (Means.ok hp).congr fun σ => by simp
  | cons t ts ih =>
    have ht := hts t List.mem_cons_self
    have hts' : ∀ t ∈ ts, t.IsConstraint := fun t ht => hts t (List.mem_cons_of_mem _ ht)
    rw [List.foldlM_cons]
    refine ((add_means p t hp ht).bind fun q hq => ih hts' hq).congr fun σ => ?_
    rw [List.forall_mem_cons, and_assoc]

/-- Adding a constraint to any path condition, and any constraints to the empty one,
means their conjunction. -/
theorem add_means_conjunction :
    (∀ (p : PathCondition) (t : Node), p.WellTyped → t.IsConstraint →
      Means (p.add t) (fun σ => p.Holds σ ∧ t.Holds σ)) ∧
    ∀ ts : List Node, (∀ t ∈ ts, t.IsConstraint) →
      Means (ts.foldlM add ∅) (fun σ => ∀ t ∈ ts, t.Holds σ) :=
  ⟨add_means, fun ts hts => (foldlM_add_means ts hts wellTyped_empty).congr fun _ =>
    and_iff_right holds_empty⟩

/-- A byte below ten that turns out to be three. -/
theorem add_means_conjunction_byte :
    let x : Node := .read (some 0) ⟨"in", 4⟩ 0
    let below : Node := .ult (some 2) x (.constant (some 1) 10 8)
    let three : Node := .eq (some 4) (.constant (some 3) 3 8) x
    ((∅ : PathCondition).insert below).WellTyped ∧ three.IsConstraint ∧
      Means (((∅ : PathCondition).insert below).add three)
        (fun σ => ((∅ : PathCondition).insert below).Holds σ ∧ three.Holds σ) ∧
      Means ([below, three].foldlM add ∅) (fun σ => ∀ t ∈ [below, three], t.Holds σ) := by
  intro x below three
  have hb : below.IsConstraint := ⟨by decide, rfl⟩
  have ht : three.IsConstraint := ⟨by decide, rfl⟩
  have hp := wellTyped_empty.insert hb
  refine ⟨hp, ht, add_means_conjunction.1 _ _ hp ht, add_means_conjunction.2 _ fun t h => ?_⟩
  rcases List.mem_cons.mp h with rfl | h
  · exact hb
  · exact List.mem_singleton.mp h ▸ ht

/-! ## Simplifying under what is known -/

/-- Constraints that are simplified under a fact that is not stored mean the same where the
fact holds.  If that ends with a complaint, the fact and the constraints exclude each
other. -/
theorem assume_means (hp : p.WellTyped) (ht : t.IsConstraint) :
    ∃ Q, Means (p.assume t) Q ∧ ∀ σ, t.Holds σ → (Q σ ↔ p.Holds σ) :=
  replaceAll_means (addWithin_means _) (replacement_agrees ht) hp

/-- A term that is simplified under what is known keeps its width, and its value wherever all
constraints hold.  Constraints that are simplified under a fact hold as before wherever the
fact does. -/
theorem simplified_keeps_meaning (hp : p.WellTyped) :
    (∀ (t : Node) (w : Nat), t.Typed w →
      (p.simplify t).Typed w ∧ ∀ σ, p.Holds σ → (p.simplify t).value σ = t.value σ) ∧
    ∀ t : Node, t.IsConstraint →
      (∀ q, p.assume t = .ok q →
        q.WellTyped ∧ ∀ σ, t.Holds σ → (q.Holds σ ↔ p.Holds σ)) ∧
      ∀ a, p.assume t = .error a → a = .falseConstraint ∧ ∀ σ, t.Holds σ → ¬ p.Holds σ := by
  refine ⟨?_, ?_⟩
  · intro t w ht
    have hagrees := simplify_agrees hp ht.wellTyped
    exact ⟨⟨hagrees.wellTyped, hagrees.width_eq.trans ht.width_eq⟩, hagrees.value_eq⟩
  · intro t ht
    obtain ⟨Q, hmeans, hQ⟩ := assume_means hp ht
    refine ⟨?_, ?_⟩
    · intro q hq
      rw [hq] at hmeans
      exact ⟨hmeans.1, fun σ hσ => (hmeans.2 σ).trans (hQ σ hσ)⟩
    · intro a ha
      rw [ha] at hmeans
      exact ⟨hmeans.1, fun σ hσ hp => hmeans.2 σ ((hQ σ hσ).mpr hp)⟩

/-- A byte that is below ten: that it is not is false, and that it is three, which it may be,
does not make the constraint mean anything else. -/
theorem simplified_keeps_meaning_byte :
    let x : Node := .read (some 0) ⟨"in", 4⟩ 0
    let below : Node := .ult (some 2) x (.constant (some 1) 10 8)
    let three : Node := .eq (some 4) (.constant (some 3) 3 8) x
    let above : Node := .not (some 5) below
    let p := (∅ : PathCondition).insert below
    p.WellTyped ∧ above.Typed boolWidth ∧ three.IsConstraint ∧
      ((p.simplify above).Typed boolWidth ∧
        ∀ σ, p.Holds σ → (p.simplify above).value σ = above.value σ) ∧
      ∃ q, p.assume three = .ok q ∧ q.WellTyped ∧ ∀ σ, three.Holds σ → (q.Holds σ ↔ p.Holds σ) := by
  intro x below three above p
  have hbelow : below.IsConstraint := ⟨by decide, rfl⟩
  have habove : above.Typed boolWidth := ⟨by decide, rfl⟩
  have hthree : three.IsConstraint := ⟨by decide, rfl⟩
  have hp : p.WellTyped := wellTyped_empty.insert hbelow
  obtain ⟨hsimplify, hassume⟩ := simplified_keeps_meaning hp
  refine ⟨hp, habove, hthree, hsimplify above boolWidth habove, ?_⟩
  cases hq : p.assume three with
  | ok q => exact ⟨q, rfl, (hassume three hthree).1 q hq⟩
  | error a =>
    -- Where all bytes are three, both hold.
    exact absurd (holds_insert.mpr ⟨holds_empty, by decide⟩)
      (((hassume three hthree).2 a hq).2 (fun _ _ => 3) (by decide))

end PathCondition

end PmemPaths.Symbolic
