import PmemPaths.Proofs.Outcome
import PmemPaths.Proofs.Symbolic.Canonical
import PmemPaths.Proofs.Symbolic.Entailment

/-!
# What adding does

Adding a constraint is bounded in its nesting.  The bound is never met: a term that is
rewritten does not grow, and what it meets is what was stored before it.  So adding does
what `PathCondition.Does` says, which has no bound (`PathCondition.addSimplified_eq_ok`),
and what adding keeps is shown by induction on that.

Whatever is closed under splitting and under rewriting by what is learned, and is true of
all constraints that are added, is true of all that is stored (`PathCondition.Does.stores`).
The canonical form is such a property, so it is never lost
(`PathCondition.canonical_form_kept`).
-/

namespace PmemPaths.Symbolic

namespace Term

section

variable {ι : Type} {t u : Term ι}

/-- The topmost node is a conjunction. -/
def isConjunction : Term ι → Bool
  | and _ _ _ => true
  | _ => false

/-- A term that may be stored: it is not known already and not to be split. -/
def IsFact (t : Term ι) : Prop := t.isConstant = false ∧ t.isConjunction = false

theorem isFact_plain {t : Node} : t.plain.IsFact ↔ t.IsFact := by
  cases t <;> rfl

/-! ## Sizes -/

theorem size_pos (t : Term ι) : 0 < t.size := by
  cases t <;> simp [size]

@[simp] theorem size_plain (t : Term ι) : t.plain.size = t.size := by
  induction t <;> simp_all [plain, size]

theorem size_lt_of_mem (h : u ∈ t.children) : u.size < t.size := by
  cases t <;> simp only [children, List.mem_cons, List.not_mem_nil, or_false] at h <;>
    simp only [size] <;> grind

theorem size_of_isConstant (h : t.isConstant = true) : t.size = 1 := by
  obtain ⟨n, hn⟩ := Option.isSome_iff_exists.mp h
  obtain ⟨m, w, rfl⟩ := constant?_eq_some hn
  rfl

/-- Folding makes nothing larger. -/
theorem FoldsTo.size_le (h : FoldsTo t u) : u.size ≤ t.size := by
  cases h with
  | self => exact Nat.le_refl _
  | constant n w => exact t.size_pos
  | operand h => exact Nat.le_of_lt (size_lt_of_mem h)
  | unnegated h =>
    have := size_lt_of_mem h
    simp only [size] at this
    omega
  | negation h => exact size_lt_of_mem h
  | swapEq => simp only [size]; omega
  | swapAdd => simp only [size]; omega

end

theorem Over.size_le {t u : Node} (h : Over (fun x x' => x'.size ≤ x.size) t u) :
    u.size ≤ t.size := by
  cases h <;> simp only [size] <;> omega

/-- Replacing by terms that are not larger makes nothing larger. -/
theorem replaceNode_size_le {find : Expr → Option Node}
    (hit : ∀ e r, find e = some r → r.size ≤ e.size) (t : Node) :
    (replaceNode find t).term.size ≤ t.size := by
  refine replaceNode_induct (R := fun t u => u.size ≤ t.size) ?hit ?same ?fold t
  case hit => exact fun t r hr => size_plain t ▸ hit _ r hr
  case same => exact fun t _ _ => Nat.le_refl _
  case fold => exact fun t u _ hover => Nat.le_trans (refold_foldsTo u).size_le hover.size_le

end Term

open Term

namespace PathCondition

variable {p q : PathCondition} {t u f c : Node}

/-! ## The number of nodes -/

theorem mem_terms_insert (h : u ∈ (p.insert t).terms) : u = t ∨ u ∈ p.terms := by
  rw [mem_terms] at h ⊢
  have hget : (p.insert t).constraints[u.plain]? =
      if compare t.plain u.plain = .eq ∧ t.plain ∉ p.constraints then some t
      else p.constraints[u.plain]? := Std.ExtTreeMap.getElem?_insertIfNew
  rw [hget] at h
  split at h
  · exact .inl (Option.some.inj h).symm
  · exact .inr h

theorem nodes_eq_sum : p.nodes = (p.toList.map Term.size).sum := by
  rw [nodes, List.sum_eq_foldl]

theorem nodup_toList : p.toList.Nodup :=
  Std.ExtTreeMap.nodup_keys

@[simp] theorem nodes_empty : (∅ : PathCondition).nodes = 0 := rfl

/-- Storing a constraint adds no more than its nodes. -/
theorem nodes_insert_le : (p.insert t).nodes ≤ p.nodes + t.size := by
  rw [nodes_eq_sum, nodes_eq_sum]
  by_cases ht : t.plain ∈ p.toList
  · have hperm : (p.insert t).toList.Perm p.toList := by
      rw [List.perm_ext_iff_of_nodup nodup_toList nodup_toList]
      intro e
      rw [mem_toList_insert, or_iff_right_of_imp]
      rintro rfl
      exact ht
    rw [(hperm.map _).sum_nat]
    exact Nat.le_add_right _ _
  · have hperm : (p.insert t).toList.Perm (t.plain :: p.toList) := by
      rw [List.perm_ext_iff_of_nodup nodup_toList (List.nodup_cons.mpr ⟨ht, nodup_toList⟩)]
      intro e
      rw [mem_toList_insert, List.mem_cons]
    have hsum := (hperm.map Term.size).sum_nat
    rw [List.map_cons, List.sum_cons, size_plain, Nat.add_comm] at hsum
    exact Nat.le_of_eq hsum

theorem sum_size_terms : (p.terms.map Term.size).sum = p.nodes := by
  rw [nodes_eq_sum, terms, values_eq_map_toList, toList, ← Std.ExtTreeMap.map_fst_toList_eq_keys,
    List.map_map, List.map_map]
  refine congrArg List.sum (List.map_congr_left ?_)
  rintro ⟨e, u⟩ h
  have he := p.plain_eq e u (Std.ExtTreeMap.mem_toList_iff_getElem?_eq_some.mp h)
  simp [← he]

/-! ## What one addition does -/

/-- A constant is given to the other side of an equality. -/
def gives : Node → Bool
  | .eq _ l _ => l.isConstant
  | _ => false

/-- A constraint under a fact. -/
def under (f c : Node) : Node :=
  c.replace ((∅ : Replacements).insert (replacement f).1 (replacement f).2)

/-- What is to be done to a path condition. -/
inductive Job where
  /-- A simplified constraint is added. -/
  | add (t : Node)
  /-- Constraints are put under a fact one after the other. -/
  | rewrite (f : Node) (cs : List Node)

/-- The job makes this path condition of that one. -/
inductive Does : PathCondition → Job → PathCondition → Prop
  | skip {p : PathCondition} {m : Label} {v w : Nat} (h : v ≠ 0) :
      Does p (.add (.constant m v w)) p
  | both {p q r : PathCondition} {m : Label} {x y : Node} (hx : Does p (.add x) q)
      (hy : Does q (.add y) r) : Does p (.add (.and m x y)) r
  | learn {p q : PathCondition} {f : Node} (h : gives f = true)
      (hp : Does ∅ (.rewrite f p.terms) q) : Does p (.add f) (q.insert f)
  | store {p : PathCondition} {t : Node} (hc : t.isConstant = false)
      (ha : t.isConjunction = false) (h : gives t = false) : Does p (.add t) (p.insert t)
  | done {p : PathCondition} {f : Node} : Does p (.rewrite f []) p
  | keep {p q : PathCondition} {f c : Node} {cs : List Node} (h : (under f c).plain = c.plain)
      (hcs : Does (p.insert c) (.rewrite f cs) q) : Does p (.rewrite f (c :: cs)) q
  | change {p q r : PathCondition} {f c : Node} {cs : List Node}
      (h : (under f c).plain ≠ c.plain) (hc : Does p (.add (under f c)) q)
      (hcs : Does q (.rewrite f cs) r) : Does p (.rewrite f (c :: cs)) r

/-- The number of nodes that a job brings along. -/
def Job.size : Job → Nat
  | .add t => t.size
  | .rewrite _ cs => (cs.map Term.size).sum

/-- A constant comes in place of something. -/
theorem replacement_isConstant (f : Node) : (replacement f).2.isConstant = true := by
  unfold replacement
  split
  · split
    · assumption
    · rfl
  · rfl

theorem isConstant_of_replacements {e : Expr} {r : Node} (h : p.replacements[e]? = some r) :
    r.isConstant = true := by
  obtain ⟨c, -, hc⟩ := getElem?_replacements h
  have hconstant := replacement_isConstant c
  rwa [hc] at hconstant

/-- A fact puts a constant in place of what it replaces, so nothing grows under it. -/
theorem size_under_le (f c : Node) : (under f c).size ≤ c.size := by
  refine replaceNode_size_le (fun e r hr => ?_) c
  obtain ⟨-, rfl⟩ := getElem?_single hr
  rw [size_of_isConstant (replacement_isConstant f)]
  exact e.size_pos

/-- A job brings no more nodes than it has. -/
theorem Does.nodes_le {j : Job} (h : Does p j q) : q.nodes ≤ p.nodes + j.size := by
  induction h with
  | skip _ => exact Nat.le_add_right _ _
  | both _ _ hx hy =>
    simp only [Job.size, Term.size] at hx hy ⊢
    omega
  | @learn p q f _ _ hp =>
    have hinsert := nodes_insert_le (p := q) (t := f)
    simp only [Job.size, nodes_empty, sum_size_terms] at hp ⊢
    omega
  | store _ _ _ => exact nodes_insert_le
  | done => exact Nat.le_add_right _ _
  | @keep p q f c cs _ _ hcs =>
    have hinsert := nodes_insert_le (p := p) (t := c)
    simp only [Job.size, List.map_cons, List.sum_cons] at hcs ⊢
    omega
  | @change p q r f c cs _ _ _ hc hcs =>
    have hsize := size_under_le f c
    simp only [Job.size, List.map_cons, List.sum_cons] at hc hcs ⊢
    omega

/-! ## The bound is never met -/

theorem replaceAll_eq (add : PathCondition → Node → Except Abort PathCondition)
    (p : PathCondition) (f : Node) :
    replaceAll add p (replacement f) = p.terms.foldlM (fun q c =>
      if (under f c).plain = c.plain then .ok (q.insert c) else add q (under f c)) ∅ := rfl

theorem replacement_of_gives {m : Label} {l r : Node} (h : gives (.eq m l r) = true) :
    replacement (.eq m l r) = (r.plain, l) := if_pos h

section

variable {n : Nat} {cs : List Node}

/-- Rewriting does what it should if the additions on the way do. -/
theorem foldlM_under_eq_ok
    (hadd : ∀ (p q : PathCondition) (t : Node), p.nodes + t.size < n →
      (addWithin n p t = .ok q ↔ Does p (.add t) q))
    (hn : p.nodes + (cs.map Term.size).sum < n) :
    cs.foldlM (fun q c => if (under f c).plain = c.plain then .ok (q.insert c)
      else addWithin n q (under f c)) p = .ok q ↔ Does p (.rewrite f cs) q := by
  induction cs generalizing p with
  | nil =>
    rw [List.foldlM_nil]
    constructor
    · rintro ⟨⟩
      exact .done
    · rintro ⟨⟩
      rfl
  | cons c cs ih =>
    rw [List.map_cons, List.sum_cons] at hn
    rw [List.foldlM_cons]
    split
    · next hkeep =>
      have hinsert := nodes_insert_le (p := p) (t := c)
      refine (ih (by omega)).trans ⟨.keep hkeep, fun h => ?_⟩
      cases h with
      | keep _ hcs => exact hcs
      | change hchange _ _ => exact absurd hkeep hchange
    · next hchange =>
      have hsize := size_under_le f c
      have hrest : ∀ r, Does p (.add (under f c)) r → r.nodes + (cs.map Term.size).sum < n := by
        intro r hr
        have := hr.nodes_le
        simp only [Job.size] at this
        omega
      rw [bind_eq_ok]
      constructor
      · rintro ⟨r, hr, hq⟩
        have hr := (hadd p r _ (by omega)).mp hr
        exact .change hchange hr ((ih (hrest r hr)).mp hq)
      · intro h
        cases h with
        | keep hkeep _ => exact absurd hkeep hchange
        | @change _ r _ _ _ _ _ hr hcs =>
          exact ⟨r, (hadd p r _ (by omega)).mpr hr, (ih (hrest r hr)).mpr hcs⟩

/-- A bound above the number of nodes is not met. -/
theorem addWithin_eq_ok (hn : p.nodes + t.size < n) :
    addWithin n p t = .ok q ↔ Does p (.add t) q := by
  induction n generalizing p q t with
  | zero => omega
  | succ n ih =>
    have hstore : t.isConstant = false → t.isConjunction = false → gives t = false →
        ((.ok (p.insert t) : Except Abort PathCondition) = .ok q ↔ Does p (.add t) q) := by
      intro hc ha hg
      constructor
      · rintro ⟨⟩
        exact .store hc ha hg
      · intro h
        cases h <;> simp_all [isConjunction, isConstant, constant?]
    cases t with
    | constant m v w =>
      rw [addWithin]
      split
      · next hv =>
        constructor
        · rintro ⟨⟩
        · intro h
          cases h <;> simp_all [isConstant, constant?, gives]
      · next hv =>
        constructor
        · rintro ⟨⟩
          exact .skip hv
        · intro h
          cases h <;> simp_all [isConstant, constant?, gives]
    | and m x y =>
      simp only [Term.size] at hn
      have hrest : ∀ r, Does p (.add x) r → r.nodes + y.size < n := by
        intro r hr
        have := hr.nodes_le
        simp only [Job.size] at this
        omega
      rw [addWithin, bind_eq_ok]
      constructor
      · rintro ⟨r, hr, hq⟩
        have hr := (ih (by omega)).mp hr
        exact .both hr ((ih (hrest r hr)).mp hq)
      · intro h
        cases h with
        | @both _ r _ _ _ _ hx hy => exact ⟨r, (ih (by omega)).mpr hx, (ih (hrest r hx)).mpr hy⟩
        | learn hg _ => cases hg
        | store _ ha _ => cases ha
    | eq m l r =>
      rw [addWithin]
      split
      · next hl =>
        simp only [Term.size] at hn
        have hall := fun q => foldlM_under_eq_ok (f := .eq m l r) (p := ∅) (q := q)
          (fun p q t => ih) (by rw [nodes_empty, sum_size_terms (p := p)]; omega)
        rw [← replacement_of_gives hl, replaceAll_eq, bind_eq_ok]
        constructor
        · rintro ⟨q', hq', ⟨⟩⟩
          exact .learn hl ((hall q').mp hq')
        · intro h
          cases h with
          | learn _ hp => exact ⟨_, (hall _).mpr hp, rfl⟩
          | store _ _ hg => exact absurd hl (Bool.eq_false_iff.mp hg)
      · next hl => exact hstore rfl rfl (Bool.eq_false_iff.mpr hl)
    | _ => exact hstore rfl rfl rfl

end

/-- A simplified constraint is added as if there were no bound. -/
theorem addSimplified_eq_ok : p.addSimplified t = .ok q ↔ Does p (.add t) q :=
  addWithin_eq_ok (Nat.lt_succ_self _)

/-! ## What is stored -/

/-- What becomes of a constraint under a fact before it is added anew, if it is. -/
def rewritten (f c : Node) : Node := if (under f c).plain = c.plain then c else under f c

/-- A property is closed under splitting conjunctions and under what is learned. -/
structure Closed (G : Node → Prop) : Prop where
  left : ∀ {m : Label} {x y : Node}, G (.and m x y) → G x
  right : ∀ {m : Label} {x y : Node}, G (.and m x y) → G y
  rewritten : ∀ {f c : Node}, gives f = true → G f → G c → G (rewritten f c)

/-- What a job brings along has a property. -/
def Job.All (G : Node → Prop) : Job → Prop
  | .add t => G t
  | .rewrite f cs => ∀ c ∈ cs, c.IsFact ∧ G (rewritten f c)

/-- All that is stored has a property. -/
def Stores (G : Node → Prop) (p : PathCondition) : Prop := ∀ u ∈ p.terms, u.IsFact ∧ G u

theorem stores_empty {G : Node → Prop} : Stores G ∅ := by
  intro u hu
  have hget : ((∅ : Std.ExtTreeMap Expr Node)[u.plain]? : Option Node) = some u := mem_terms.mp hu
  simp at hget

theorem Stores.insert {G : Node → Prop} (h : p.Stores G) (ht : t.IsFact) (hG : G t) :
    (p.insert t).Stores G := by
  intro u hu
  rcases mem_terms_insert hu with rfl | hu
  · exact ⟨ht, hG⟩
  · exact h u hu

theorem isFact_of_gives (h : gives t = true) : t.IsFact := by
  cases t with
  | eq m l r => exact ⟨rfl, rfl⟩
  | _ => cases h

/-- What is stored has a closed property if what is added does. -/
theorem Does.stores {G : Node → Prop} (hG : Closed G) {j : Job} (h : Does p j q) (hj : j.All G)
    (hp : p.Stores G) : q.Stores G := by
  induction h with
  | skip _ => exact hp
  | both _ _ hx hy => exact hy (hG.right hj) (hx (hG.left hj) hp)
  | @learn p q f hg _ ih =>
    have hall : (Job.rewrite f p.terms).All G := fun c hc =>
      ⟨(hp c hc).1, hG.rewritten hg hj (hp c hc).2⟩
    exact (ih hall stores_empty).insert (isFact_of_gives hg) hj
  | store hc ha _ => exact hp.insert ⟨hc, ha⟩ hj
  | done => exact hp
  | @keep p q f c cs hkeep _ ih =>
    obtain ⟨hfact, hc⟩ := hj c List.mem_cons_self
    rw [rewritten, if_pos hkeep] at hc
    exact ih (fun d hd => hj d (List.mem_cons_of_mem _ hd)) (hp.insert hfact hc)
  | @change p q r f c cs hchange _ _ ih ihcs =>
    obtain ⟨-, hc⟩ := hj c List.mem_cons_self
    rw [rewritten, if_neg hchange] at hc
    exact ihcs (fun d hd => hj d (List.mem_cons_of_mem _ hd)) (ih hc hp)

/-! ## Canonical constraints -/

/-- Where the fact holds a constraint has the same value under it. -/
theorem under_agrees (hf : f.IsConstraint) (hc : c.WellTyped) :
    AgreesWhere (fun σ => f.Holds σ) (under f c) c :=
  replace_agrees (.single (replacement_agrees hf)) hc

/-- A truth value none of whose nodes can be folded. -/
structure IsCanonical (t : Node) : Prop where
  isConstraint : t.IsConstraint
  canonical : t.Canonical

theorem under_isCanonical (hf : f.IsConstraint) (hc : IsCanonical c) : IsCanonical (under f c) := by
  refine ⟨AgreesWhere.isConstraint (under_agrees hf hc.isConstraint.wellTyped) hc.isConstraint, ?_⟩
  refine replace_canonical (fun e r hr => ?_) hc.isConstraint.wellTyped hc.canonical
  obtain ⟨rfl, rfl⟩ := getElem?_single hr
  have hagrees := replacement_agrees hf
  exact ⟨⟨hagrees.wellTyped, hagrees.width_eq⟩,
    canonical_of_isConstant (replacement_isConstant f)⟩

theorem simplify_isCanonical (hp : p.WellTyped) (ht : IsCanonical t) :
    IsCanonical (p.simplify t) := by
  refine ⟨AgreesWhere.isConstraint (simplify_agrees hp ht.isConstraint.wellTyped)
    ht.isConstraint, ?_⟩
  rw [simplify]
  split
  · exact ht.canonical
  refine replace_canonical (fun e r hr => ?_) ht.isConstraint.wellTyped ht.canonical
  have hagrees := replacements_replaces hp e r hr
  exact ⟨⟨hagrees.wellTyped, hagrees.width_eq⟩,
    canonical_of_isConstant (isConstant_of_replacements hr)⟩

/-- The parts of a canonical conjunction are canonical, and so is what a canonical fact
rewrites. -/
theorem closed_isCanonical : Closed IsCanonical where
  left h := by
    obtain ⟨hx, -, hwx, -⟩ := h.isConstraint.wellTyped
    exact ⟨⟨hx, hwx⟩, (canonical_iff.mp h.canonical).2 _ (by simp [children])⟩
  right h := by
    obtain ⟨-, hy, -, hwy⟩ := h.isConstraint.wellTyped
    exact ⟨⟨hy, hwy⟩, (canonical_iff.mp h.canonical).2 _ (by simp [children])⟩
  rewritten := by
    intro f c _ hf hc
    rw [PathCondition.rewritten]
    split
    · exact hc
    · exact under_isCanonical hf.isConstraint hc

theorem Stores.wellTyped (h : p.Stores IsCanonical) : p.WellTyped := by
  intro e he
  obtain ⟨u, hu, rfl⟩ := mem_toList_iff_terms.mp he
  exact typed_plain.mpr (h u hu).2.isConstraint

theorem add_stores_canonical (hp : p.Stores IsCanonical) (ht : IsCanonical t)
    (h : p.add t = .ok q) : q.Stores IsCanonical :=
  (addSimplified_eq_ok.mp h).stores closed_isCanonical (simplify_isCanonical hp.wellTyped ht) hp

/-- Folding makes canonical terms of canonical operands, replacing by canonical terms of the
same widths keeps a term canonical, and of canonical constraints that are added to nothing
all that is stored is canonical, is not constant and is no conjunction. -/
theorem canonical_form_kept {ι : Type} :
    (∀ t : Term ι, t.WellTyped → (∀ x ∈ t.children, x.Canonical) → t.refold.Canonical) ∧
    (∀ (table : Replacements) (t : Node), t.WellTyped → t.Canonical →
      (∀ (e : Expr) (r : Node), table[e]? = some r → r.Typed e.width ∧ r.Canonical) →
      (t.replace table).Canonical) ∧
    ∀ (ts : List Node) (p : PathCondition), (∀ t ∈ ts, t.IsConstraint ∧ t.Canonical) →
      ts.foldlM add ∅ = .ok p →
      ∀ e ∈ p.toList, e.Canonical ∧ e.isConstant = false ∧ e.isConjunction = false := by
  refine ⟨fun t => refold_canonical, fun table t ht hc htable => replace_canonical htable ht hc, ?_⟩
  intro ts p hts hp e he
  have hstores : p.Stores IsCanonical :=
    foldlM_preserves (fun t ht _ _ hp => add_stores_canonical hp ⟨(hts t ht).1, (hts t ht).2⟩)
      stores_empty hp
  obtain ⟨u, hu, rfl⟩ := mem_toList_iff_terms.mp he
  obtain ⟨hfact, hcanonical⟩ := hstores u hu
  exact ⟨canonical_plain.mpr hcanonical.canonical, isFact_plain.mpr hfact⟩

/-- A byte that is two more than another one, which turns out to be one. -/
theorem canonical_form_kept_sum :
    let x : Node := .read (some 0) ⟨"in", 4⟩ 0
    let y : Node := .read (some 1) ⟨"in", 4⟩ 1
    let one : Node := .constant (some 2) 1 8
    let two : Node := .constant (some 3) 2 8
    let sum : Node := .add (some 4) two y
    let table := (∅ : Replacements).insert y.plain one
    let ts : List Node := [.eq (some 5) x sum, .eq (some 6) one y]
    (Term.add none y two).WellTyped ∧ (∀ x ∈ (Term.add none y two).children, x.Canonical) ∧
      (Term.add none y two).refold.Canonical ∧
      sum.WellTyped ∧ sum.Canonical ∧
      (∀ (e : Expr) (r : Node), table[e]? = some r → r.Typed e.width ∧ r.Canonical) ∧
      (sum.replace table).Canonical ∧
      (∀ t ∈ ts, t.IsConstraint ∧ t.Canonical) ∧
      ∃ p, ts.foldlM add ∅ = .ok p ∧
        ∀ e ∈ p.toList, e.Canonical ∧ e.isConstant = false ∧ e.isConjunction = false := by
  intro x y one two sum table ts
  have htable : ∀ (e : Expr) (r : Node), table[e]? = some r → r.Typed e.width ∧ r.Canonical := by
    intro e r hr
    obtain ⟨rfl, rfl⟩ := getElem?_single hr
    exact ⟨⟨by decide, rfl⟩, by decide⟩
  have hts : ∀ t ∈ ts, t.IsConstraint ∧ t.Canonical := by
    intro t ht
    simp only [ts, List.mem_cons, List.not_mem_nil, or_false] at ht
    rcases ht with rfl | rfl <;> exact ⟨⟨by decide, rfl⟩, by decide⟩
  obtain ⟨hrefold, hreplace, hadd⟩ := canonical_form_kept (ι := Label)
  exact ⟨by decide, by decide, hrefold _ (by decide) (by decide), by decide, by decide, htable,
    hreplace table sum (by decide) (by decide) htable, hts, _, rfl, hadd ts _ hts rfl⟩

end PathCondition

end PmemPaths.Symbolic
