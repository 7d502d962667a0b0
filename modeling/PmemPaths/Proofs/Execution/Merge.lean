import PmemPaths.Execution.Merge
import PmemPaths.Proofs.OrderedMap
import PmemPaths.Proofs.Symbolic.Entailment

/-!
# Merged states keep both paths

A merge splits either path condition into the constraints of both and a remainder
of its own.  Under every assignment a path condition holds exactly when the common
constraints and its remainder do (`State.holds_iff_remainder`), so the common
constraints and the disjunction of the remainders say that one of the two held.

A local that differs becomes a choice by the first remainder.  Where the first path
condition holds, so does that remainder.  Where only the second holds, the common
constraints do, so the first remainder cannot.
-/

namespace PmemPaths.Execution

open PmemPaths.Symbolic
open PmemPaths.Symbolic (Term)
open PmemPaths.Symbolic.Term (mkAnd mkOr mkBool mkAnd_agrees mkOr_agrees)

variable {σ : Assignment} {guard x y : Expr} {p q common : PathCondition}

/-! ## Conjunctions and disjunctions of constraints -/

theorem mkAnd_isConstraint {m : Label} {x y : Node} (hx : x.IsConstraint) (hy : y.IsConstraint) :
    (mkAnd m x y).IsConstraint := by
  have h := mkAnd_agrees (m := m) ⟨hx.wellTyped, hy.wellTyped, hx.width_eq, hy.width_eq⟩
  exact ⟨h.wellTyped, h.width_eq⟩

theorem holds_mkAnd {m : Label} {x y : Node} (hx : x.IsConstraint) (hy : y.IsConstraint) :
    (mkAnd m x y).Holds σ ↔ x.Holds σ ∧ y.Holds σ := by
  have h := mkAnd_agrees (m := m) ⟨hx.wellTyped, hy.wellTyped, hx.width_eq, hy.width_eq⟩
  rw [Term.Holds, h.value_eq σ]
  exact PathCondition.holds_and hx hy

theorem mkOr_isConstraint {m : Label} {x y : Node} (hx : x.IsConstraint) (hy : y.IsConstraint) :
    (mkOr m x y).IsConstraint := by
  have h := mkOr_agrees (m := m) ⟨hx.wellTyped, hy.wellTyped, hx.width_eq, hy.width_eq⟩
  exact ⟨h.wellTyped, h.width_eq⟩

theorem holds_mkOr {m : Label} {x y : Node} (hx : x.IsConstraint) (hy : y.IsConstraint) :
    (mkOr m x y).Holds σ ↔ x.Holds σ ∨ y.Holds σ := by
  have h := mkOr_agrees (m := m) ⟨hx.wellTyped, hy.wellTyped, hx.width_eq, hy.width_eq⟩
  rw [Term.Holds, h.value_eq σ]
  exact PathCondition.holds_or hx hy

theorem mkBool_isConstraint {m : Label} (b : Bool) : (mkBool m b).IsConstraint :=
  ⟨Term.mkBool_wellTyped b, rfl⟩

theorem foldl_mkAnd_isConstraint {m : Label} (ts : List Node) (hts : ∀ t ∈ ts, t.IsConstraint)
    {x : Node} (hx : x.IsConstraint) : (ts.foldl (mkAnd m) x).IsConstraint := by
  induction ts generalizing x with
  | nil => exact hx
  | cons t ts ih =>
    obtain ⟨ht, hts⟩ := List.forall_mem_cons.mp hts
    exact ih hts (mkAnd_isConstraint hx ht)

/-- A conjunction of constraints holds exactly where each of them does. -/
theorem holds_foldl_mkAnd {m : Label} (ts : List Node) (hts : ∀ t ∈ ts, t.IsConstraint)
    {x : Node} (hx : x.IsConstraint) :
    (ts.foldl (mkAnd m) x).Holds σ ↔ x.Holds σ ∧ ∀ t ∈ ts, t.Holds σ := by
  induction ts generalizing x with
  | nil => simp
  | cons t ts ih =>
    obtain ⟨ht, hts⟩ := List.forall_mem_cons.mp hts
    rw [List.foldl_cons, ih hts (mkAnd_isConstraint hx ht), holds_mkAnd hx ht,
      List.forall_mem_cons, and_assoc]

namespace State

/-! ## Path conditions in two parts -/

theorem mem_commonConstraints {e : Expr} :
    e ∈ (commonConstraints p q).toList ↔ e ∈ p.toList ∧ e ∈ q.toList := by
  rw [commonConstraints, PathCondition.mem_toList_ofList,
    PathCondition.mem_toList_iff_terms (p := p)]
  constructor
  · rintro ⟨t, ht, rfl⟩
    obtain ⟨ht, hq⟩ := List.mem_filter.mp ht
    exact ⟨⟨t, ht, rfl⟩, PathCondition.contains_iff.mp hq⟩
  · rintro ⟨⟨t, ht, rfl⟩, hq⟩
    exact ⟨t, List.mem_filter.mpr ⟨ht, PathCondition.contains_iff.mpr hq⟩, rfl⟩

theorem wellTyped_commonConstraints (hp : p.WellTyped) : (commonConstraints p q).WellTyped :=
  fun e he => hp e (mem_commonConstraints.mp he).1

/-- The remainder is made of the constraints that are not common. -/
theorem mem_remaining {t : Node} :
    t ∈ p.terms.filter (!common.contains ·.plain) ↔ t ∈ p.terms ∧ t.plain ∉ common.toList := by
  rw [List.mem_filter, ← PathCondition.contains_iff, Bool.not_eq_true', Bool.not_eq_true]

theorem remainder_isConstraint (hp : p.WellTyped) : (remainder common p).IsConstraint :=
  foldl_mkAnd_isConstraint _ (fun _ ht => hp.of_terms (mem_remaining.mp ht).1)
    (mkBool_isConstraint true)

/-- A remainder holds exactly where the constraints that are not common do. -/
theorem holds_remainder (hp : p.WellTyped) :
    (remainder common p).Holds σ ↔ ∀ e ∈ p.toList, e ∉ common.toList → e.Holds σ := by
  have hts : ∀ t ∈ p.terms.filter (!common.contains ·.plain), t.IsConstraint := fun t ht =>
    hp.of_terms (mem_remaining.mp ht).1
  rw [remainder, holds_foldl_mkAnd _ hts (mkBool_isConstraint true)]
  constructor
  · rintro ⟨-, h⟩ e he hc
    obtain ⟨t, ht, rfl⟩ := PathCondition.mem_toList_iff_terms.mp he
    exact PathCondition.holds_plain.mpr (h t (mem_remaining.mpr ⟨ht, hc⟩))
  · intro h
    refine ⟨Term.mkBool_value true σ, fun t ht => ?_⟩
    obtain ⟨ht, hc⟩ := mem_remaining.mp ht
    exact PathCondition.holds_plain.mp
      (h _ (PathCondition.mem_toList_iff_terms.mpr ⟨t, ht, rfl⟩) hc)

/-- A path condition holds where some of its constraints and the remainder do. -/
theorem holds_iff_remainder (hp : p.WellTyped) (hc : ∀ e ∈ common.toList, e ∈ p.toList) :
    p.Holds σ ↔ common.Holds σ ∧ (remainder common p).Holds σ := by
  rw [holds_remainder hp]
  constructor
  · intro h
    exact ⟨fun e he => h e (hc e he), fun e he _ => h e he⟩
  · rintro ⟨h, hr⟩ e he
    by_cases hec : e ∈ common.toList
    · exact h e hec
    · exact hr e he hec

theorem holds_left (hp : p.WellTyped) : p.Holds σ ↔
    (commonConstraints p q).Holds σ ∧ (remainder (commonConstraints p q) p).Holds σ :=
  holds_iff_remainder hp fun _ he => (mem_commonConstraints.mp he).1

theorem holds_right (hq : q.WellTyped) : q.Holds σ ↔
    (commonConstraints p q).Holds σ ∧ (remainder (commonConstraints p q) q).Holds σ :=
  holds_iff_remainder hq fun _ he => (mem_commonConstraints.mp he).2

/-- The merged path condition means that one of the two held. -/
theorem mergedCondition_means (hp : p.WellTyped) (hq : q.WellTyped) :
    PathCondition.Means ((commonConstraints p q).add (mkOr none
      (remainder (commonConstraints p q) p) (remainder (commonConstraints p q) q)))
      (fun σ => p.Holds σ ∨ q.Holds σ) := by
  have hmine : (remainder (commonConstraints p q) p).IsConstraint := remainder_isConstraint hp
  have htheirs : (remainder (commonConstraints p q) q).IsConstraint := remainder_isConstraint hq
  refine (PathCondition.add_means _ _ (wellTyped_commonConstraints hp)
    (mkOr_isConstraint hmine htheirs)).congr fun σ => ?_
  rw [holds_mkOr hmine htheirs, and_or_left, ← holds_left hp, ← holds_right hq]

end State

/-! ## Locals -/

/-- A local of a frame, if it is set. -/
def Frame.local? (f : Frame) (cell : Nat) : Option Expr := f.locals[cell]?.join

/-- A local of a thread, frames counted from the innermost. -/
def Thread.local? (t : Thread) (frame cell : Nat) : Option Expr :=
  t.stack[frame]?.bind (·.local? cell)

/-- A local of a state, if there is one and it is set. -/
def State.local? (s : State) (u : ThreadUid) (frame cell : Nat) : Option Expr :=
  s.threads[u]?.bind (·.local? frame cell)

/-- A merged local is chosen by the guard, whether the two differ or not. -/
theorem Frame.mergeLocal_some (guard x y : Expr) :
    ∃ z, mergeLocal guard (some x) (some y) = some z ∧
      ∀ σ, z.value σ = if guard.Holds σ then x.value σ else y.value σ := by
  rw [mergeLocal]
  split
  · next h =>
    refine ⟨x, rfl, fun σ => ?_⟩
    rw [h, ite_self]
  · exact ⟨_, rfl, fun σ => Term.mkSelect_value σ⟩

theorem Frame.local?_merge (f g : Frame) (cell : Nat) :
    (f.merge guard g).local? cell = mergeLocal guard (f.local? cell) (g.local? cell) := by
  simp only [local?, merge, Array.getElem?_mapIdx]
  cases f.locals[cell]? with
  | none => rfl
  | some x =>
    cases g.locals[cell]? with
    | none => rfl
    | some y => rfl

/-- A local of both threads is merged frame by frame. -/
theorem Thread.local?_merge {t u : Thread} {frame cell : Nat} (hx : t.local? frame cell = some x)
    (hy : u.local? frame cell = some y) :
    (t.merge guard u).local? frame cell = Frame.mergeLocal guard (some x) (some y) := by
  obtain ⟨f, hf, hx⟩ := Option.bind_eq_some_iff.mp hx
  obtain ⟨g, hg, hy⟩ := Option.bind_eq_some_iff.mp hy
  rw [local?, merge, List.getElem?_zipWith_eq_some.mpr ⟨f, g, hf, hg, rfl⟩, Option.bind_some,
    Frame.local?_merge, hx, hy]

namespace State

variable {s t u : State} {uid : ThreadUid} {frame cell : Nat}

theorem mergeThreads_eq_insertMany (s t : State) (guard : Expr) :
    s.mergeThreads t guard = s.threads.insertMany ((s.threads.toList.zip t.threads.toList).map
      fun e => (e.1.1, e.1.2.merge guard e.2.2)) := by
  rw [Std.ExtTreeMap.insertMany_list_eq_foldl, List.foldl_map]
  rfl

theorem getElem?_mergeThreads (hkeys : s.threads.keys = t.threads.keys) {a b : Thread}
    (ha : s.threads[uid]? = some a) (hb : t.threads[uid]? = some b) :
    (s.mergeThreads t guard)[uid]? = some (a.merge guard b) := by
  rw [mergeThreads_eq_insertMany, getElem?_insertMany_zip _ hkeys, ha, hb]
  rfl

/-! ## Merging -/

theorem current_eq_of_mergeable (h : s.mergeable t = true) : s.current = t.current := by
  simp only [mergeable, Bool.and_eq_true, decide_eq_true_eq] at h
  exact h.1.1.1.1

theorem keys_eq_of_mergeable (h : s.mergeable t = true) : s.threads.keys = t.threads.keys := by
  simp only [mergeable, Bool.and_eq_true, decide_eq_true_eq] at h
  exact h.1.1.1.2

/-- What the first path has besides the constraints of both. -/
def mergeGuard (s t : State) : Node :=
  remainder (commonConstraints s.condition t.condition) s.condition

/-- The condition of the merged path. -/
def mergedCondition (s t : State) : Except Abort PathCondition :=
  (commonConstraints s.condition t.condition).add (mkOr none (s.mergeGuard t)
    (remainder (commonConstraints s.condition t.condition) t.condition))

theorem mergeInto_of_not_mergeable (h : ¬ s.mergeable t = true) :
    s.mergeInto t = .ok (s, false) := by
  rw [Bool.not_eq_true] at h
  rw [mergeInto, merge, h]
  rfl

theorem mergeInto_of_mergeable (h : s.mergeable t = true) :
    s.mergeInto t = (s.mergedCondition t).map fun condition =>
      ({ s with
        threads := s.mergeThreads t (s.mergeGuard t).plain
        memory := (s.memory.merge? t.memory (s.mergeGuard t).plain).getD s.memory
        condition }, true) := by
  rw [mergeInto, merge, h]
  simp only [mergedCondition, mergeGuard]
  cases (commonConstraints s.condition t.condition).add (mkOr none
    (remainder (commonConstraints s.condition t.condition) s.condition)
    (remainder (commonConstraints s.condition t.condition) t.condition)) with
  | error a => rfl
  | ok c => rfl

/-- A merge leaves the state as it is or changes its threads, its memory and its condition. -/
theorem of_mergeInto {u : State} {merged : Bool} (h : s.mergeInto t = .ok (u, merged)) :
    (merged = false ∧ u = s) ∨
      (merged = true ∧ s.mergeable t = true ∧ ∃ condition, u = { s with
        threads := s.mergeThreads t (s.mergeGuard t).plain
        memory := (s.memory.merge? t.memory (s.mergeGuard t).plain).getD s.memory
        condition }) := by
  by_cases hm : s.mergeable t = true
  · rw [mergeInto_of_mergeable hm] at h
    cases hc : s.mergedCondition t with
    | error e =>
      rw [hc] at h
      cases h
    | ok c =>
      rw [hc] at h
      cases h
      exact .inr ⟨rfl, hm, c, rfl⟩
  · rw [mergeInto_of_not_mergeable hm] at h
    cases h
    exact .inl ⟨rfl, rfl⟩

/-- A state keeps what two paths were: it means that one of the two conditions
holds, and a local of both has its first value where the first does and its second
where only the second does. -/
structure KeepsBoth (s t u : State) : Prop where
  wellTyped : u.condition.WellTyped
  holds_iff : ∀ σ, u.condition.Holds σ ↔ s.condition.Holds σ ∨ t.condition.Holds σ
  /-- What is a local of both is a local still, with either value in its place. -/
  local_eq : ∀ uid frame cell x y,
    s.local? uid frame cell = some x → t.local? uid frame cell = some y →
      ∃ z, u.local? uid frame cell = some z ∧
        (∀ σ, s.condition.Holds σ → z.value σ = x.value σ) ∧
        (∀ σ, t.condition.Holds σ → ¬ s.condition.Holds σ → z.value σ = y.value σ)

/-- A local of both states is merged thread by thread. -/
theorem local?_mergeThreads (hkeys : s.threads.keys = t.threads.keys)
    (hx : s.local? uid frame cell = some x) (hy : t.local? uid frame cell = some y) :
    ({ s with threads := s.mergeThreads t guard } : State).local? uid frame cell =
      Frame.mergeLocal guard (some x) (some y) := by
  obtain ⟨a, ha, hx⟩ := Option.bind_eq_some_iff.mp hx
  obtain ⟨b, hb, hy⟩ := Option.bind_eq_some_iff.mp hy
  rw [local?, getElem?_mergeThreads hkeys ha hb]
  exact Thread.local?_merge hx hy

theorem keepsBoth_of_mergedCondition (hs : s.condition.WellTyped) (ht : t.condition.WellTyped)
    (hm : s.mergeable t = true) (hc : s.mergedCondition t = .ok u.condition)
    (hu : u.threads = s.mergeThreads t (s.mergeGuard t).plain) : KeepsBoth s t u := by
  have hmeans := mergedCondition_means hs ht
  rw [← mergeGuard, ← mergedCondition, hc] at hmeans
  refine ⟨hmeans.1, hmeans.2, fun uid frame cell x y hx hy => ?_⟩
  obtain ⟨z, hz, hvalue⟩ := Frame.mergeLocal_some (s.mergeGuard t).plain x y
  have hlocal : u.local? uid frame cell = some z := by
    rw [local?, hu, ← hz, ← local?_mergeThreads (keys_eq_of_mergeable hm) hx hy]
    rfl
  refine ⟨z, hlocal, fun σ hsσ => ?_, fun σ htσ hsσ => ?_⟩
  · have hguard : (s.mergeGuard t).Holds σ := ((holds_left hs).mp hsσ).2
    rw [hvalue, if_pos (PathCondition.holds_plain.mpr hguard)]
  · have hcommon := ((holds_right (p := s.condition) ht).mp htσ).1
    have hguard : ¬ (s.mergeGuard t).plain.Holds σ := fun h =>
      hsσ ((holds_left hs).mpr ⟨hcommon, PathCondition.holds_plain.mp h⟩)
    rw [hvalue, if_neg hguard]

/-- A merge keeps both paths, a merge that is refused changes nothing, and of paths of
which one is possible those that are mergeable are merged and the others refused. -/
theorem mergeInto_keepsBoth (hs : s.condition.WellTyped) (ht : t.condition.WellTyped) :
    (∀ u, s.mergeInto t = .ok (u, true) → KeepsBoth s t u) ∧
    (∀ u, s.mergeInto t = .ok (u, false) → u = s) ∧
    ((∃ σ, s.condition.Holds σ ∨ t.condition.Holds σ) →
      ∃ u, s.mergeInto t = .ok (u, s.mergeable t)) := by
  by_cases hm : s.mergeable t = true
  · have hmeans := mergedCondition_means hs ht
    rw [← mergeGuard, ← mergedCondition] at hmeans
    rw [mergeInto_of_mergeable hm, hm]
    cases hc : s.mergedCondition t with
    | error a =>
      rw [hc] at hmeans
      refine ⟨fun u h => ?_, fun u h => ?_, fun ⟨σ, hσ⟩ => absurd hσ (hmeans.2 σ)⟩
      · cases h
      · cases h
    | ok c =>
      refine ⟨fun u h => ?_, fun u h => ?_, fun _ => ⟨_, rfl⟩⟩
      · obtain rfl := (Prod.mk.inj (Except.ok.inj h)).1
        exact keepsBoth_of_mergedCondition hs ht hm hc rfl
      · cases h
  · have hfalse : s.mergeable t = false := by simpa using hm
    rw [mergeInto_of_not_mergeable hm, hfalse]
    refine ⟨fun u h => ?_, fun u h => ?_, fun _ => ⟨_, rfl⟩⟩
    · cases h
    · exact (Prod.mk.inj (Except.ok.inj h)).1.symm

/-- A byte that is three on one path and below two on another, where a local is one
and two. -/
theorem mergeInto_keepsBoth_byte :
    let x : Node := .read (some 0) ⟨"in", 4⟩ 0
    let thread (v : Nat) : Thread :=
      { pc := ⟨1⟩, prevPc := ⟨0⟩, heuristic := .off
        stack := [{ caller := none, function := ⟨0⟩, locals := #[some (.constant () v 8)] }] }
    let s : State :=
      { id := 1, threads := (∅ : Std.ExtTreeMap ThreadUid Thread).insert .main (thread 1)
        condition := (∅ : PathCondition).insert (.eq (some 2) (.constant (some 1) 3 8) x) }
    let t : State :=
      { id := 2, threads := (∅ : Std.ExtTreeMap ThreadUid Thread).insert .main (thread 2)
        condition := (∅ : PathCondition).insert (.ult (some 4) x (.constant (some 3) 2 8)) }
    s.condition.WellTyped ∧ t.condition.WellTyped ∧
      ∃ u, s.mergeInto t = .ok (u, true) ∧ KeepsBoth s t u := by
  intro x thread s t
  have hs : s.condition.WellTyped := PathCondition.wellTyped_empty.insert ⟨by decide, rfl⟩
  have ht : t.condition.WellTyped := PathCondition.wellTyped_empty.insert ⟨by decide, rfl⟩
  obtain ⟨hkeeps, -, -⟩ := mergeInto_keepsBoth hs ht
  obtain ⟨u, hu⟩ : ∃ u, s.mergeInto t = .ok (u, true) := ⟨_, rfl⟩
  exact ⟨hs, ht, u, hu, hkeeps u hu⟩

end State

end PmemPaths.Execution
