import PmemPaths.Proofs.Symbolic.Adding

/-!
# Settled bytes

A path condition *settles* a byte when it stores an equality that gives the byte a constant
and the byte occurs in no other constraint.  What is added later is simplified first, and
no replacement brings a byte back, so a byte that is settled stays so
(`PathCondition.Does.settled`).

An equality settles its byte when nothing that is still to be stored has the byte in it.
This is so of an equality that is added for itself: the constraints stored before it are
rewritten by it.  It need not be so of one that comes out of something else.  Neither the
other member of a conjunction nor the constraints that are still to be rewritten have been
simplified by it, and nothing simplifies them later (`PathCondition.Learns`,
`PathCondition.learned_byte_settled`, `PathCondition.learned_not_settled`).
-/

namespace PmemPaths.Symbolic

namespace Term

section

variable {ι κ : Type} {e : Expr} {t : Term ι}

/-- The expression does not occur in the term. -/
def Avoids (t : Term ι) (e : Expr) : Prop := ∀ u ∈ t.parts, u.plain ≠ e

instance : Decidable (t.Avoids e) := inferInstanceAs (Decidable (∀ u ∈ t.parts, u.plain ≠ e))

theorem avoids_iff : t.Avoids e ↔ t.plain ≠ e ∧ ∀ x ∈ t.children, x.Avoids e := forall_parts

theorem Avoids.operand {x : Term ι} (h : t.Avoids e) (hx : x ∈ t.children) : x.Avoids e :=
  (avoids_iff.mp h).2 x hx

theorem avoids_plain : t.plain.Avoids e ↔ t.Avoids e := by
  simp only [Avoids, parts_plain, List.forall_mem_map, plain_self]

theorem Avoids.of_plain_eq {u : Term κ} (h : t.Avoids e) (htu : t.plain = u.plain) :
    u.Avoids e := by
  rw [← avoids_plain, ← htu, avoids_plain]
  exact h

theorem Avoids.of_isConstant (h : t.isConstant = true) (he : e.isConstant = false) :
    t.Avoids e := by
  obtain ⟨n, hn⟩ := Option.isSome_iff_exists.mp h
  obtain ⟨m, w, rfl⟩ := constant?_eq_some hn
  refine avoids_iff.mpr ⟨?_, by simp [children]⟩
  rintro rfl
  cases he

end

section

variable {find : Expr → Option Node} {heap : Nat → Expr} {e : Expr} {t u r : Node}

/-- Nodes of one identity look alike. -/
def Labelled (heap : Nat → Expr) (t : Node) : Prop :=
  ∀ u ∈ t.parts, ∀ n, u.mark = some n → u.plain = heap n

instance : Decidable (t.Labelled heap) :=
  inferInstanceAs (Decidable (∀ u ∈ t.parts, ∀ n ∈ u.mark, u.plain = heap n))

theorem labelled_iff : t.Labelled heap ↔
    (∀ n, t.mark = some n → t.plain = heap n) ∧ ∀ x ∈ t.children, x.Labelled heap := forall_parts

/-! ## Replacing bytes -/

/-- What every node has, and every new node that is no byte, every node has after replacement
by terms of that sort. -/
theorem replaceNode_forall_parts {P : Node → Prop}
    (hit : ∀ e r, find e = some r → ∀ v ∈ r.parts, P v)
    (hnew : ∀ v : Node, v.mark = none → (∀ m a i, v ≠ read m a i) → P v)
    (h : ∀ v ∈ t.parts, P v) : ∀ v ∈ (replaceNode find t).term.parts, P v := by
  refine replaceNode_induct (R := fun t u => (∀ v ∈ t.parts, P v) → ∀ v ∈ u.parts, P v)
    ?hit ?same ?fold t h
  case hit => exact fun t r hr _ => hit _ r hr
  case same => exact fun t _ _ h => h
  case fold =>
    intro t u _ hover h
    refine (refold_foldsTo u).forall_parts (fun v hv => hnew v (hv.trans hover.mark_eq))
      hover.not_read fun x hx => ?_
    obtain ⟨y, hy, hyx⟩ := hover.of_mem hx
    exact hyx ((Term.forall_parts.mp h).2 y hy)

theorem replaceNode_labelled (hit : ∀ e r, find e = some r → r.Labelled heap)
    (h : t.Labelled heap) : (replaceNode find t).term.Labelled heap :=
  replaceNode_forall_parts hit (fun v hv _ n hn => by rw [hv] at hn; cases hn) h

/-- Replacement does not bring a byte back. -/
theorem replaceNode_avoids {a : SymbolicArray} {i : Nat}
    (hit : ∀ e r, find e = some r → r.Avoids (read () a i)) (h : t.Avoids (read () a i)) :
    (replaceNode find t).term.Avoids (read () a i) :=
  replaceNode_forall_parts hit (fun v _ hread hv => by cases v <;> simp_all [plain]) h

/-- A term without any of what is to be replaced stays the node that it is. -/
theorem replaceNode_of_none (h : ∀ u ∈ t.parts, find u.plain = none) :
    replaceNode find t = ⟨t, false⟩ := by
  induction t with
  | constant | read => rw [replaceNode, h _ (by simp [parts])]
  | not m x ih =>
    rw [replaceNode, h _ (by simp [parts])]
    simp_all [rebuild₁, parts]
  | select m c x y ihc ihx ihy =>
    rw [replaceNode, h _ (by simp [parts])]
    simp_all [rebuild₃, parts]
  | eq m x y ihx ihy | ult m x y ihx ihy | and m x y ihx ihy | or m x y ihx ihy
  | add m x y ihx ihy =>
    rw [replaceNode, h _ (by simp [parts])]
    simp_all [rebuild₂, parts]

theorem replaceNode_eq (find : Expr → Option Node) (t : Node) :
    replaceNode find t = ⟨t, false⟩ ∨ ∃ r, replaceNode find t = .instead t r := by
  unfold replaceNode
  split
  · exact .inr ⟨_, rfl⟩
  cases t with
  | constant | read => exact .inl rfl
  | _ =>
    simp only [rebuild₁, rebuild₂, rebuild₃]
    split
    · exact .inr ⟨_, rfl⟩
    · exact .inl rfl

/-- What is taken for unchanged is the node that it was or one of its identity. -/
theorem replaceNode_unchanged (h : (replaceNode find t).changed = false) :
    (replaceNode find t).term = t ∨ (replaceNode find t).term.isNode t = true := by
  rcases replaceNode_eq find t with ht | ⟨r, ht⟩
  · exact .inl (by rw [ht])
  · rw [ht] at h ⊢
    exact .inr (by simpa [Replaced.instead] using h)

theorem plain_eq_of_isNode (ht : t.Labelled heap) (hu : u.Labelled heap)
    (h : t.isNode u = true) : t.plain = u.plain := by
  simp only [isNode, Bool.and_eq_true, Option.isSome_iff_exists, decide_eq_true_eq] at h
  obtain ⟨⟨n, hn⟩, hm⟩ := h
  rw [(labelled_iff.mp ht).1 n hn, (labelled_iff.mp hu).1 n (hm ▸ hn)]

/-- A byte that is replaced by something else is gone. -/
theorem replaceNode_eliminates {a : SymbolicArray} {i : Nat}
    (hbyte : find (read () a i) ≠ none)
    (hit : ∀ e r, find e = some r → r.Avoids (read () a i) ∧ r.Labelled heap)
    (h : t.Labelled heap) : (replaceNode find t).term.Avoids (read () a i) := by
  refine replaceNode_induct (R := fun t u => t.Labelled heap → u.Avoids (read () a i))
    ?hit ?same ?fold t h
  case hit => exact fun t r hr _ => (hit _ r hr).1
  case same =>
    intro t hr hchildren h
    refine avoids_iff.mpr ⟨fun he => hbyte (he ▸ hr), fun x hx => ?_⟩
    have hlx := (labelled_iff.mp h).2 x hx
    obtain ⟨hchanged, havoids⟩ := hchildren x hx
    refine (havoids hlx).of_plain_eq ?_
    rcases replaceNode_unchanged hchanged with hsame | hnode
    · rw [hsame]
    · exact plain_eq_of_isNode (replaceNode_labelled (fun e r hr => (hit e r hr).2) hlx) hlx hnode
  case fold =>
    intro t u _ hover h
    refine (refold_foldsTo u).forall_parts (fun v _ hread hv => ?_) hover.not_read fun x hx => ?_
    · cases v <;> simp_all [plain]
    · obtain ⟨y, hy, hyx⟩ := hover.of_mem hx
      exact hyx ((labelled_iff.mp h).2 y hy)

end

end Term

open Term

namespace PathCondition

variable {heap : Nat → Expr} {a : SymbolicArray} {i : Nat} {e : Expr} {p q : PathCondition}
  {t f c : Node} {j : Job}

/-! ## Constraints under a fact -/

/-- A canonical truth value whose nodes are told apart by their identities. -/
structure IsNode (heap : Nat → Expr) (t : Node) : Prop where
  isCanonical : IsCanonical t
  labelled : t.Labelled heap

theorem replacement_avoids (f : Node) : (replacement f).2.Avoids (.read () a i) :=
  .of_isConstant (replacement_isConstant f) rfl

theorem replacement_labelled (hf : f.Labelled heap) : (replacement f).2.Labelled heap := by
  have htrue : (mkBool none true : Node).Labelled heap :=
    labelled_iff.mpr ⟨nofun, by simp [mkBool, mkConstant, children]⟩
  unfold replacement
  split
  · split
    · exact (labelled_iff.mp hf).2 _ (by simp [children])
    · exact htrue
  · exact htrue

theorem under_labelled (hf : f.Labelled heap) (hc : c.Labelled heap) :
    (under f c).Labelled heap := by
  refine replaceNode_labelled (fun e r hr => ?_) hc
  obtain ⟨-, rfl⟩ := getElem?_single hr
  exact replacement_labelled hf

theorem under_avoids (hc : c.Avoids (.read () a i)) : (under f c).Avoids (.read () a i) := by
  refine replaceNode_avoids (fun e r hr => ?_) hc
  obtain ⟨-, rfl⟩ := getElem?_single hr
  exact replacement_avoids f

theorem under_eliminates (hf : f.Labelled heap) (hc : c.Labelled heap)
    (hbyte : (replacement f).1 = .read () a i) : (under f c).Avoids (.read () a i) := by
  refine replaceNode_eliminates ?_ (fun e r hr => ?_) hc
  · rw [← hbyte]
    simp
  · obtain ⟨-, rfl⟩ := getElem?_single hr
    exact ⟨replacement_avoids f, replacement_labelled hf⟩

theorem under_of_avoids (h : c.Avoids (replacement f).1) : under f c = c := by
  refine congrArg Replaced.term (replaceNode_of_none fun u hu => ?_)
  rw [Std.ExtTreeMap.getElem?_insert, if_neg, Std.ExtTreeMap.getElem?_empty]
  rw [Std.LawfulEqCmp.compare_eq_iff_eq]
  exact fun he => h u hu he.symm

theorem rewritten_plain (f c : Node) : (rewritten f c).plain = (under f c).plain := by
  rw [rewritten]
  split
  · next h => exact h.symm
  · rfl

theorem rewritten_avoids_iff : (rewritten f c).Avoids e ↔ (under f c).Avoids e :=
  ⟨fun h => h.of_plain_eq (rewritten_plain f c),
    fun h => h.of_plain_eq (rewritten_plain f c).symm⟩

theorem closed_isNode : Closed (IsNode heap) where
  left h := ⟨closed_isCanonical.left h.isCanonical,
    (labelled_iff.mp h.labelled).2 _ (by simp [children])⟩
  right h := ⟨closed_isCanonical.right h.isCanonical,
    (labelled_iff.mp h.labelled).2 _ (by simp [children])⟩
  rewritten hg hf hc := by
    refine ⟨closed_isCanonical.rewritten hg hf.isCanonical hc.isCanonical, ?_⟩
    rw [PathCondition.rewritten]
    split
    · exact hc.labelled
    · exact under_labelled hf.labelled hc.labelled

/-! ## What settles a byte stays -/

theorem closed_avoids : Closed fun t => IsNode heap t ∧ t.Avoids (.read () a i) where
  left h := ⟨closed_isNode.left h.1, h.2.operand (by simp [children])⟩
  right h := ⟨closed_isNode.right h.1, h.2.operand (by simp [children])⟩
  rewritten hg hf hc :=
    ⟨closed_isNode.rewritten hg hf.1 hc.1, rewritten_avoids_iff.mpr (under_avoids hc.2)⟩

/-- A constraint is the one that gives a byte its constant, or does not have the byte in it. -/
structure Apart (heap : Nat → Expr) (v : Expr) (a : SymbolicArray) (i : Nat) (t : Node) :
    Prop where
  isNode : IsNode heap t
  settles_or_avoids : t.plain = .eq () v (.read () a i) ∨ t.Avoids (.read () a i)

variable {v : Expr}

theorem not_avoids_eq : ¬ (Term.eq () v e).Avoids e :=
  fun h => (avoids_iff.mp (h.operand (x := e) (by simp [children]))).1 (plain_self e)

theorem gives_of_plain (hv : v.isConstant = true) (h : t.plain = .eq () v e) :
    gives t = true ∧ (replacement t).1 = e := by
  cases t with
  | eq m l r =>
    simp only [plain, Term.eq.injEq, true_and] at h
    obtain ⟨rfl, rfl⟩ := h
    have hg : gives (.eq m l r) = true := (isConstant_plain l).symm.trans hv
    exact ⟨hg, by rw [replacement_of_gives hg]⟩
  | _ => simp [plain] at h

/-- What is learned about other terms leaves the constraint that settles a byte alone. -/
theorem under_settles (hv : v.isConstant = true) (hg : gives f = true) (hf : IsNode heap f)
    (ha : f.Avoids (.read () a i)) (hc : c.plain = .eq () v (.read () a i)) :
    under f c = c := by
  cases f with
  | eq m l r =>
    have hr : r.Avoids (.read () a i) := ha.operand (by simp [children])
    have hr' : r.plain ≠ .read () a i := (avoids_iff.mp hr).1
    have hrc : r.plain.isConstant = false := by
      rw [isConstant_plain]
      exact (canonical_eq.mp hf.isCanonical.canonical).1.1
    refine under_of_avoids ?_
    rw [replacement_of_gives hg, ← avoids_plain, hc]
    refine avoids_iff.mpr ⟨?_, ?_⟩
    · intro he
      have he' : Term.eq () v (.read () a i) = r.plain := (plain_self _).symm.trans he
      exact not_avoids_eq (he' ▸ avoids_plain.mpr hr)
    · simp only [children, List.mem_cons, List.not_mem_nil, or_false, forall_eq_or_imp, forall_eq]
      exact ⟨.of_isConstant hv hrc, avoids_iff.mpr ⟨hr'.symm, by simp [children]⟩⟩
  | _ => cases hg

theorem closed_apart (hv : v.isConstant = true) : Closed (Apart heap v a i) := by
  have avoids : ∀ {t : Node}, IsNode heap t → t.Avoids (.read () a i) → Apart heap v a i t :=
    fun ht ha => ⟨ht, .inr ha⟩
  refine ⟨?left, ?right, ?rewritten⟩
  case left =>
    intro m x y h
    have ha := h.settles_or_avoids.resolve_left (by simp [plain])
    exact avoids (closed_isNode.left h.isNode) (ha.operand (by simp [children]))
  case right =>
    intro m x y h
    have ha := h.settles_or_avoids.resolve_left (by simp [plain])
    exact avoids (closed_isNode.right h.isNode) (ha.operand (by simp [children]))
  case rewritten =>
    intro f c hg hf hc
    have hnode := closed_isNode.rewritten hg hf.isNode hc.isNode
    rcases hc.settles_or_avoids with hsettles | havoids
    · rcases hf.settles_or_avoids with hf' | hf'
      · -- The fact is the same constraint, and all that is left of the other one is true.
        refine avoids hnode (rewritten_avoids_iff.mpr ?_)
        exact under_eliminates hf.isNode.labelled hc.isNode.labelled (gives_of_plain hv hf').2
      · have hsame := under_settles hv hg hf.isNode hf' hsettles
        refine ⟨hnode, .inl ?_⟩
        rw [rewritten_plain, hsame, hsettles]
    · exact avoids hnode (rewritten_avoids_iff.mpr (under_avoids havoids))

/-- The constraints that a job still has to store. -/
def Job.pending : Job → List Node
  | .add _ => []
  | .rewrite _ cs => cs

/-- A job does not rewrite by virtue of a constraint with the expression in it. -/
def Job.Spares (heap : Nat → Expr) (e : Expr) : Job → Prop
  | .add _ => True
  | .rewrite f _ => gives f = true ∧ IsNode heap f ∧ f.Avoids e

/-- The constraint that gives a byte its constant is still stored after a job. -/
theorem Does.retains (hv : v.isConstant = true) (h : Does p j q)
    (hp : p.Stores (Apart heap v a i)) (hj : j.All (Apart heap v a i))
    (hs : j.Spares heap (.read () a i))
    (hk : .eq () v (.read () a i) ∈ p.toList ∨
      ∃ c ∈ j.pending, c.plain = .eq () v (.read () a i)) :
    .eq () v (.read () a i) ∈ q.toList := by
  have hclosed : Closed (Apart heap v a i) := closed_apart hv
  induction h with
  | skip _ => exact hk.resolve_right (by simp [Job.pending])
  | @both p q r m x y hx _ ihx ihy =>
    have hk := hk.resolve_right (by simp [Job.pending])
    have hq := hx.stores hclosed (hclosed.left hj) hp
    exact ihy hq (hclosed.right hj) trivial (.inl (ihx hp (hclosed.left hj) trivial (.inl hk)))
  | @learn p q f hg hdoes ih =>
    rw [mem_toList_insert]
    rcases hj.settles_or_avoids with hsettles | havoids
    · exact .inl hsettles.symm
    · obtain ⟨c, hc, hplain⟩ := mem_toList_iff_terms.mp (hk.resolve_right (by simp [Job.pending]))
      have hall : (Job.rewrite f p.terms).All (Apart heap v a i) := fun c hc =>
        ⟨(hp c hc).1, hclosed.rewritten hg hj (hp c hc).2⟩
      exact .inr (ih stores_empty hall ⟨hg, hj.isNode, havoids⟩ (.inr ⟨c, hc, hplain⟩))
  | store _ _ _ =>
    exact mem_toList_insert.mpr (.inr (hk.resolve_right (by simp [Job.pending])))
  | done => exact hk.resolve_right (by simp [Job.pending])
  | @keep p q f c cs hkeep _ ih =>
    obtain ⟨hfact, hc⟩ := hj c List.mem_cons_self
    rw [rewritten, if_pos hkeep] at hc
    refine ih (hp.insert hfact hc) (fun d hd => hj d (List.mem_cons_of_mem _ hd)) hs ?_
    rcases hk with hk | ⟨d, hd, hplain⟩
    · exact .inl (mem_toList_insert.mpr (.inr hk))
    · rcases List.mem_cons.mp hd with rfl | hd
      · exact .inl (mem_toList_insert.mpr (.inl hplain.symm))
      · exact .inr ⟨d, hd, hplain⟩
  | @change p q r f c cs hchange hadd _ ih ihcs =>
    obtain ⟨-, hc⟩ := hj c List.mem_cons_self
    rw [rewritten, if_neg hchange] at hc
    refine ihcs (hadd.stores hclosed hc hp) (fun d hd => hj d (List.mem_cons_of_mem _ hd)) hs ?_
    rcases hk with hk | ⟨d, hd, hplain⟩
    · exact .inl (ih hp hc trivial (.inl hk))
    · rcases List.mem_cons.mp hd with rfl | hd
      · obtain ⟨hg, hf, ha⟩ := hs
        exact absurd (congrArg plain (under_settles hv hg hf ha hplain)) hchange
      · exact .inr ⟨d, hd, hplain⟩

/-- A byte has been given a constant, and no other constraint has the byte in it. -/
structure Fixed (heap : Nat → Expr) (v : Expr) (a : SymbolicArray) (i : Nat)
    (p : PathCondition) : Prop where
  isConstant : v.isConstant = true
  mem : .eq () v (.read () a i) ∈ p.toList
  apart : p.Stores (Apart heap v a i)

theorem Fixed.insert (hp : Fixed heap v a i p) (ht : t.IsFact) (h : Apart heap v a i t) :
    Fixed heap v a i (p.insert t) :=
  ⟨hp.isConstant, mem_toList_insert.mpr (.inr hp.mem), hp.apart.insert ht h⟩

theorem Does.fixed (h : Does p j q) (hp : Fixed heap v a i p) (hj : j.All (Apart heap v a i))
    (hs : j.Spares heap (.read () a i)) : Fixed heap v a i q :=
  ⟨hp.isConstant, h.retains hp.isConstant hp.apart hj hs (.inl hp.mem),
    h.stores (closed_apart hp.isConstant) hj hp.apart⟩

/-! ## What is added later -/

theorem getElem?_foldl_insert_ne_none {γ : Type} (l : List γ) (f : γ → Expr × Node)
    (table : Replacements) (h : (∃ c ∈ l, (f c).1 = e) ∨ table[e]? ≠ none) :
    (l.foldl (fun table c => table.insert (f c).1 (f c).2) table)[e]? ≠ none := by
  induction l generalizing table with
  | nil => simpa using h
  | cons c cs ih =>
    refine ih _ ?_
    rw [Std.ExtTreeMap.getElem?_insert]
    split
    · exact .inr nofun
    · next hne =>
      rw [Std.LawfulEqCmp.compare_eq_iff_eq] at hne
      rcases h with ⟨d, hd, he⟩ | h
      · rcases List.mem_cons.mp hd with rfl | hd
        · exact absurd he hne
        · exact .inl ⟨d, hd, he⟩
      · exact .inr h

theorem simplify_labelled (hp : ∀ c ∈ p.terms, c.Labelled heap) (ht : t.Labelled heap) :
    (p.simplify t).Labelled heap := by
  rw [simplify]
  split
  · exact ht
  refine replaceNode_labelled (fun e r hr => ?_) ht
  obtain ⟨c, hc, hcr⟩ := getElem?_replacements hr
  have := replacement_labelled (hp c hc)
  rwa [hcr] at this

/-- What is simplified does not have a byte in it that has been given a constant. -/
theorem Fixed.simplify_avoids (hp : Fixed heap v a i p) (ht : t.Labelled heap) :
    (p.simplify t).Avoids (.read () a i) := by
  obtain ⟨c, hc, hplain⟩ := mem_toList_iff_terms.mp hp.mem
  rw [simplify]
  split
  · next h =>
    rw [Bool.or_eq_true] at h
    rcases h with hconstant | hempty
    · exact .of_isConstant hconstant rfl
    · have hget := mem_terms.mp hc
      rw [Std.ExtTreeMap.isEmpty_iff.mp hempty] at hget
      simp at hget
  · refine replaceNode_eliminates ?_ (fun e r hr => ?_) ht
    · exact getElem?_foldl_insert_ne_none _ _ _
        (.inl ⟨c, hc, (gives_of_plain hp.isConstant hplain).2⟩)
    · obtain ⟨d, hd, hdr⟩ := getElem?_replacements hr
      have havoids := replacement_avoids d (a := a) (i := i)
      have hlabelled := replacement_labelled (hp.apart d hd).2.isNode.labelled
      rw [hdr] at havoids hlabelled
      exact ⟨havoids, hlabelled⟩

theorem Stores.imp {G H : Node → Prop} (h : p.Stores G) (hGH : ∀ t, G t → H t) : p.Stores H :=
  fun u hu => ⟨(h u hu).1, hGH u (h u hu).2⟩

theorem simplify_isNode (hp : p.Stores (IsNode heap)) (ht : IsNode heap t) :
    IsNode heap (p.simplify t) := by
  have hwellTyped := (hp.imp fun _ h => h.isCanonical).wellTyped
  exact ⟨simplify_isCanonical hwellTyped ht.isCanonical,
    simplify_labelled (fun c hc => (hp c hc).2.labelled) ht.labelled⟩

/-- A byte that has been given a constant stays so. -/
theorem Fixed.add (hp : Fixed heap v a i p) (ht : IsNode heap t) (h : p.add t = .ok q) :
    Fixed heap v a i q := by
  have hsimplify := simplify_isNode (hp.apart.imp fun _ h => h.isNode) ht
  exact (addSimplified_eq_ok.mp h).fixed hp ⟨hsimplify, .inr (hp.simplify_avoids ht.labelled)⟩
    trivial

/-! ## How a byte is given its constant -/

/-- Adding gives an expression a constant when nothing that has the expression in it is still
to be stored. -/
inductive Learns (e : Expr) : PathCondition → Node → Prop
  /-- The constraint says so itself. -/
  | here {p : PathCondition} {m : Label} {l r : Node} (hl : l.isConstant = true)
      (hr : r.plain = e) : Learns e p (.eq m l r)
  | first {p : PathCondition} {m : Label} {x y : Node} (hx : Learns e p x) (hy : y.Avoids e) :
      Learns e p (.and m x y)
  | second {p : PathCondition} {m : Label} {x y : Node}
      (hy : ∀ q, Does p (.add x) q → Learns e q y) : Learns e p (.and m x y)
  /-- A stored constraint says so when the fact that is added has rewritten it. -/
  | rewritten {p : PathCondition} {f c : Node} {before after : List Node} (hg : gives f = true)
      (hf : f.Avoids e) (hp : p.terms = before ++ c :: after)
      (hchange : (under f c).plain ≠ c.plain)
      (hc : ∀ q, Does ∅ (.rewrite f before) q → Learns e q (under f c))
      (hafter : ∀ d ∈ after, (under f d).Avoids e) : Learns e p f

theorem does_rewrite_append {xs ys : List Node} :
    Does p (.rewrite f (xs ++ ys)) q ↔
      ∃ r, Does p (.rewrite f xs) r ∧ Does r (.rewrite f ys) q := by
  induction xs generalizing p with
  | nil =>
    refine ⟨fun h => ⟨p, .done, h⟩, ?_⟩
    rintro ⟨r, hr, h⟩
    cases hr
    exact h
  | cons c cs ih =>
    constructor
    · intro h
      cases h with
      | keep hkeep h =>
        obtain ⟨r, hr, h⟩ := ih.mp h
        exact ⟨r, .keep hkeep hr, h⟩
      | change hchange hc h =>
        obtain ⟨r, hr, h⟩ := ih.mp h
        exact ⟨r, .change hchange hc hr, h⟩
    · rintro ⟨r, hr, h⟩
      cases hr with
      | keep hkeep hr => exact .keep hkeep (ih.mpr ⟨r, hr, h⟩)
      | change hchange hc hr => exact .change hchange hc (ih.mpr ⟨r, hr, h⟩)

theorem Learns.fixed (h : Learns (.read () a i) p t) (hp : p.Stores (IsNode heap))
    (ht : IsNode heap t) (hq : Does p (.add t) q) : ∃ v, Fixed heap v a i q := by
  induction h generalizing q with
  | @here p m l r hl hr =>
    cases hq with
    | @learn _ q _ hg hrun =>
      have hkey : (replacement (.eq m l r)).1 = .read () a i := by rw [replacement_of_gives hg, hr]
      have hall : (Job.rewrite (.eq m l r) p.terms).All
          fun t => IsNode heap t ∧ t.Avoids (.read () a i) := by
        intro c hc
        obtain ⟨hfact, hnode⟩ := hp c hc
        refine ⟨hfact, closed_isNode.rewritten hg ht hnode, rewritten_avoids_iff.mpr ?_⟩
        exact under_eliminates ht.labelled hnode.labelled hkey
      have hstored := (hrun.stores closed_avoids hall stores_empty).imp
        fun t h => (⟨h.1, .inr h.2⟩ : Apart heap l.plain a i t)
      have hplain : (Term.eq m l r).plain = .eq () l.plain (.read () a i) := by rw [plain, hr]
      exact ⟨l.plain, (isConstant_plain l).trans hl, mem_toList_insert.mpr (.inl hplain.symm),
        hstored.insert (isFact_of_gives hg) ⟨ht, .inl hplain⟩⟩
    | store _ _ hg => exact absurd hl (Bool.eq_false_iff.mp hg)
  | @first p m x y _ hy ih =>
    cases hq with
    | both hx hq =>
      obtain ⟨v, hv⟩ := ih hp (closed_isNode.left ht) hx
      exact ⟨v, hq.fixed hv ⟨closed_isNode.right ht, .inr hy⟩ trivial⟩
    | learn hg _ => cases hg
    | store _ ha _ => cases ha
  | @second p m x y _ ih =>
    cases hq with
    | @both _ r _ _ _ _ hx hq =>
      exact ih r hx (hx.stores closed_isNode (closed_isNode.left ht) hp) (closed_isNode.right ht) hq
    | learn hg _ => cases hg
    | store _ ha _ => cases ha
  | @rewritten p f c before after hg hf hterms hchange _ hafter ih =>
    have hmem : ∀ d ∈ before ++ c :: after, d.IsFact ∧ IsNode heap (PathCondition.rewritten f d) :=
      fun d hd => ⟨(hp d (hterms ▸ hd)).1, closed_isNode.rewritten hg ht (hp d (hterms ▸ hd)).2⟩
    cases hq with
    | @learn _ q _ _ hrun =>
      rw [hterms, does_rewrite_append] at hrun
      obtain ⟨r, hbefore, hrun⟩ := hrun
      cases hrun with
      | keep hkeep _ => exact absurd hkeep hchange
      | @change _ r' _ _ _ _ _ hadd hrest =>
        have hr : r.Stores (IsNode heap) := hbefore.stores closed_isNode
          (fun d hd => hmem d (List.mem_append_left _ hd)) stores_empty
        have hc := (hmem c (by simp)).2
        rw [PathCondition.rewritten, if_neg hchange] at hc
        obtain ⟨v, hv⟩ := ih r hbefore hr hc hadd
        have hrest := hrest.fixed hv (fun d hd => ?_) ⟨hg, ht, hf⟩
        · exact ⟨v, hrest.insert (isFact_of_gives hg) ⟨ht, .inr hf⟩⟩
        · have hd' := hmem d (List.mem_append_right _ (List.mem_cons_of_mem _ hd))
          exact ⟨hd'.1, hd'.2, .inr (rewritten_avoids_iff.mpr (hafter d hd))⟩
    | skip _ => cases hg
    | both _ _ => cases hg
    | store _ _ hstore => exact absurd hg (Bool.eq_false_iff.mp hstore)

/-- The constant that an expression has is stored, and no other constraint has the expression
in it. -/
def Settled (p : PathCondition) (e : Expr) : Prop :=
  ∃ c : Expr, c.isConstant = true ∧ .eq () c e ∈ p.toList ∧
    ∀ d ∈ p.toList, d ≠ .eq () c e → d.Avoids e

theorem Fixed.settled (h : Fixed heap v a i p) : p.Settled (.read () a i) := by
  refine ⟨v, h.isConstant, h.mem, fun d hd hne => ?_⟩
  obtain ⟨t, ht, rfl⟩ := mem_toList_iff_terms.mp hd
  exact avoids_plain.mpr ((h.apart t ht).2.settles_or_avoids.resolve_left hne)

/-- An expression that is settled has one constant only. -/
theorem Settled.constant_unique {c d : Expr} (h : p.Settled e) (hc : .eq () c e ∈ p.toList)
    (hd : .eq () d e ∈ p.toList) : c = d := by
  obtain ⟨v, -, -, hapart⟩ := h
  have huniq : ∀ {c}, .eq () c e ∈ p.toList → c = v := by
    intro c hc
    refine Decidable.byContradiction fun hne => ?_
    exact not_avoids_eq (hapart _ hc (by simpa using hne))
  rw [huniq hc, huniq hd]

/-- A byte that is given a constant when nothing that has the byte in it is still to be stored
is settled from then on. -/
theorem learned_byte_settled {ts us : List Node}
    (hts : ∀ u ∈ ts ++ t :: us, u.IsConstraint ∧ u.Canonical ∧ u.Labelled heap)
    (hp : ts.foldlM add ∅ = .ok p) (ht : Learns (.read () a i) p (p.simplify t))
    (hq : (t :: us).foldlM add p = .ok q) :
    q.Settled (.read () a i) ∧ ∀ c d : Expr, .eq () c (.read () a i) ∈ q.toList →
      .eq () d (.read () a i) ∈ q.toList → c = d := by
  have hnode : ∀ u ∈ ts ++ t :: us, IsNode heap u :=
    fun u hu => ⟨⟨(hts u hu).1, (hts u hu).2.1⟩, (hts u hu).2.2⟩
  have hstored : p.Stores (IsNode heap) := by
    refine foldlM_preserves (fun u hu p q hp hq => ?_) stores_empty hp
    have hsimplify := simplify_isNode hp (hnode u (List.mem_append_left _ hu))
    exact (addSimplified_eq_ok.mp hq).stores closed_isNode hsimplify hp
  rw [List.foldlM_cons, bind_eq_ok] at hq
  obtain ⟨r, hr, hq⟩ := hq
  have hsimplify := simplify_isNode hstored (hnode t (by simp))
  obtain ⟨v, hv⟩ := ht.fixed hstored hsimplify (addSimplified_eq_ok.mp hr)
  have hfixed : Fixed heap v a i q :=
    foldlM_preserves (fun u hu p q hp hq => hp.add (hnode u (by simp [hu])) hq) hv hq
  exact ⟨hfixed.settled, fun c d => hfixed.settled.constant_unique⟩

theorem exists_of_toOption {r : Except Abort PathCondition} {es : List Expr}
    (h : r.toOption.map toList = some es) : ∃ p, r = .ok p ∧ p.toList = es := by
  cases r with
  | error b => cases h
  | ok p => exact ⟨p, rfl, Option.some.inj h⟩

/-- A byte that is below another one, and that a conjunction gives its constant last. -/
theorem learned_byte_settled_three :
    let array : SymbolicArray := ⟨"in", 4⟩
    let x : Node := .read (some 0) array 0
    let y : Node := .read (some 1) array 1
    let three : Node := .constant (some 2) 3 8
    let less : Node := .ult (some 3) x y
    let both : Node := .and (some 7) (.ult (some 5) y (.constant (some 4) 10 8))
      (.eq (some 6) three x)
    let heap : Nat → Expr := fun n => (([x, y, three, less] ++ both.parts).find?
      (·.mark = some n)).elim x.plain plain
    let p := (∅ : PathCondition).insert less
    (∀ u ∈ [less, both, less], u.IsConstraint ∧ u.Canonical ∧ u.Labelled heap) ∧
      [less].foldlM add ∅ = .ok p ∧ Learns (.read () array 0) p (p.simplify both) ∧
      ∃ q, [both, less].foldlM add p = .ok q ∧
        q.toList = [.eq () three.plain x.plain, .ult () three.plain y.plain,
          .ult () y.plain (.constant () 10 8)] ∧
        q.Settled (.read () array 0) := by
  intro array x y three less both heap p
  have hnodes : ∀ u ∈ [less] ++ both :: [less],
      u.IsConstraint ∧ u.Canonical ∧ u.Labelled heap := by
    intro u hu
    simp only [List.cons_append, List.nil_append, List.mem_cons, List.not_mem_nil, or_false] at hu
    rcases hu with rfl | rfl | rfl <;> exact ⟨⟨by decide, rfl⟩, by decide, by decide⟩
  have hp : [less].foldlM add ∅ = .ok p := rfl
  have hsimplify : p.simplify both = both := by decide +kernel
  have hlearns : Learns (.read () array 0) p (p.simplify both) := by
    rw [hsimplify]
    exact .second fun _ _ => .here rfl rfl
  obtain ⟨q, hq, hlist⟩ := exists_of_toOption
    (show ([both, less].foldlM add p).toOption.map toList =
      some [.eq () three.plain x.plain, .ult () three.plain y.plain,
        .ult () y.plain (.constant () 10 8)] by decide +kernel)
  exact ⟨hnodes, hp, hlearns, q, hq, hlist, (learned_byte_settled hnodes hp hlearns hq).1⟩

/-- The other member of a conjunction keeps the byte that the first one gives a constant, and
two sums that become the same one have two constants. -/
theorem learned_not_settled :
    let x : Node := mkRead (some 0) ⟨"in", 4⟩ 0
    let y : Node := mkRead (some 1) ⟨"in", 4⟩ 1
    let three : Node := mkConstant (some 2) 3 8
    let given : Node := mkEq (some 3) three x
    let less : Node := mkUlt (some 4) x y
    let both : Node := mkAnd (some 5) given less
    let seven : Node := mkEq (some 8) (mkConstant (some 6) 7 8) (mkAdd (some 7) three y)
    let five : Node := mkEq (some 11) (mkConstant (some 9) 5 8) (mkAdd (some 10) x y)
    (∀ t ∈ [both, seven, five, given], t.IsConstraint) ∧
      (¬ ∀ p, [both].foldlM add ∅ = .ok p → ∀ c e : Expr, c.isConstant = true →
        .eq () c e ∈ p.toList → ∀ d ∈ p.toList, d ≠ .eq () c e → d.Avoids e) ∧
      ¬ ∀ p, [seven, five, given].foldlM add ∅ = .ok p → ∀ c d e : Expr, c.isConstant = true →
        d.isConstant = true → .eq () c e ∈ p.toList → .eq () d e ∈ p.toList → c = d := by
  intro x y three given less both seven five
  refine ⟨?_, ?_, ?_⟩
  · intro t ht
    simp only [List.mem_cons, List.not_mem_nil, or_false] at ht
    rcases ht with rfl | rfl | rfl | rfl <;> exact ⟨by decide, rfl⟩
  · intro h
    obtain ⟨p, hp, hlist⟩ := exists_of_toOption
      (show ([both].foldlM add ∅).toOption.map toList = some [given.plain, less.plain] by
        decide +kernel)
    have havoids := h p hp three.plain x.plain rfl (hlist ▸ List.mem_cons_self) less.plain
      (by simp [hlist]) (by decide)
    exact absurd havoids (by decide)
  · intro h
    let sum : Expr := .add () three.plain y.plain
    obtain ⟨p, hp, hlist⟩ := exists_of_toOption
      (show ([seven, five, given].foldlM add ∅).toOption.map toList =
        some [given.plain, .eq () (.constant () 5 8) sum, .eq () (.constant () 7 8) sum] by
        decide +kernel)
    have hsame := h p hp (.constant () 7 8) (.constant () 5 8) sum rfl rfl (by simp [hlist])
      (by simp [hlist])
    exact absurd hsame (by decide)

end PathCondition

end PmemPaths.Symbolic
