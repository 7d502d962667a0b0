import Mathlib.Logic.Function.Iterate
import PmemPaths.Proofs.Symbolic.Adding

/-!
# Adding comes to an end

A constraint that is added may have all others rewritten, and each of those may be added
anew and have rewritten what has been stored again so far, to any depth.  Here adding goes
step by step, with no bound: what is stored so far is kept together with the tasks that are
left, and one step does a part of the next task or puts others in its place
(`PathCondition.Stage.next`).

To add so many nodes to so many others takes at most two to the power of them all.  This
bound falls with each step, at whatever stage, since rewriting begins with nothing stored and
meets fewer nodes than there were (`PathCondition.Stage.bound_next_lt`).  So the steps end,
and they end with the result of the operation (`PathCondition.adding_ends`).
-/

namespace PmemPaths.Symbolic.PathCondition

open Term

variable {p q : PathCondition} {t f c : Node} {cs : List Node} {n k : Nat}

/-! ## Steps -/

/-- A part of the work that is left. -/
inductive Task where
  /-- A simplified constraint is to be added. -/
  | add (t : Node)
  /-- A constraint is to be put under a fact, and to be added anew if that changes it. -/
  | rewrite (f c : Node)
  /-- A constraint is to be stored as it is. -/
  | store (t : Node)

/-- How far an operation has come. -/
inductive Stage where
  /-- This is stored, and these tasks are left, the next one first. -/
  | running (p : PathCondition) (tasks : List Task)
  /-- The operation was given up. -/
  | aborted (e : Abort)

namespace Stage

variable {m m' m'' : Stage} {tasks tasks' : List Task}

/-- The stage after one step.  Nothing follows the last one. -/
def next : Stage → Stage
  | running p (.add t :: tasks) =>
    match t with
    | .constant _ v _ => if v = 0 then aborted .falseConstraint else running p tasks
    | .and _ x y => running p (.add x :: .add y :: tasks)
    | .eq _ l _ =>
      -- What is stored is taken out and comes back one by one, and the fact comes last.
      if l.isConstant then running ∅ (p.terms.map (.rewrite t) ++ .store t :: tasks)
      else running (p.insert t) tasks
    | _ => running (p.insert t) tasks
  | running p (.rewrite f c :: tasks) =>
    if (under f c).plain = c.plain then running (p.insert c) tasks
    else running p (.add (under f c) :: tasks)
  | running p (.store t :: tasks) => running (p.insert t) tasks
  | running p [] => running p []
  | aborted e => aborted e

/-- The stage when a part of the work has come to a result, with the tasks after it left. -/
def after (r : Except Abort PathCondition) (tasks : List Task) : Stage :=
  match r with
  | .ok p => running p tasks
  | .error e => aborted e

/-- The last stage of an operation with that result. -/
def finished (r : Except Abort PathCondition) : Stage := after r []

theorem next_finished (r : Except Abort PathCondition) : (finished r).next = finished r := by
  cases r with
  | error e => rfl
  | ok p => rfl

/-- A stage comes after so many steps. -/
def Reaches (m m' : Stage) : Prop := ∃ n, next^[n] m = m'

theorem Reaches.refl (m : Stage) : Reaches m m := ⟨0, rfl⟩

theorem Reaches.head (h : Reaches m.next m') : Reaches m m' := by
  obtain ⟨n, h⟩ := h
  exact ⟨n + 1, h⟩

theorem Reaches.trans (h : Reaches m m') (h' : Reaches m' m'') : Reaches m m'' := by
  obtain ⟨n, rfl⟩ := h
  obtain ⟨n', rfl⟩ := h'
  exact ⟨n' + n, Function.iterate_add_apply next n' n m⟩

/-- One part of the work follows another. -/
theorem Reaches.bind {r : Except Abort PathCondition}
    {g : PathCondition → Except Abort PathCondition} (h : Reaches m (after r tasks'))
    (hg : ∀ q, r = .ok q → Reaches (running q tasks') (after (g q) tasks)) :
    Reaches m (after (r >>= g) tasks) := by
  cases r with
  | error e => exact h
  | ok q => exact h.trans (hg q rfl)

/-! ## Steps lead to the result -/

/-- Rewriting is done step by step if the additions on the way are. -/
theorem reaches_foldlM_under
    (hadd : ∀ (p : PathCondition) (t : Node) (tasks : List Task), p.nodes + t.size < n →
      Reaches (running p (.add t :: tasks)) (after (addWithin n p t) tasks))
    (hn : p.nodes + (cs.map Term.size).sum < n) :
    Reaches (running p (cs.map (.rewrite f) ++ tasks))
      (after (cs.foldlM (fun q c => if (under f c).plain = c.plain then .ok (q.insert c)
        else addWithin n q (under f c)) p) tasks) := by
  induction cs generalizing p with
  | nil => exact .refl _
  | cons c cs ih =>
    rw [List.map_cons, List.sum_cons] at hn
    rw [List.map_cons, List.cons_append, List.foldlM_cons]
    refine .head ?_
    rw [next]
    split
    · have hinsert := nodes_insert_le (p := p) (t := c)
      exact ih (by omega)
    · have hsize := size_under_le f c
      refine .bind (hadd p (under f c) _ (by omega)) fun q hq => ih ?_
      -- The bound still holds after the addition, which brought no more nodes than it had.
      have hnodes := ((addWithin_eq_ok (by omega)).mp hq).nodes_le
      simp only [Job.size] at hnodes
      omega

/-- With a bound that is not met, adding is done step by step. -/
theorem reaches_addWithin (tasks : List Task) (hn : p.nodes + t.size < n) :
    Reaches (running p (.add t :: tasks)) (after (addWithin n p t) tasks) := by
  induction n generalizing p t tasks with
  | zero => omega
  | succ n ih =>
    refine .head ?_
    cases t with
    | constant m v w =>
      rw [next, addWithin]
      split
      · exact .refl _
      · exact .refl _
    | and m x y =>
      simp only [Term.size] at hn
      rw [addWithin]
      refine .bind (ih (.add y :: tasks) (by omega)) fun q hq => ih tasks ?_
      have hnodes := ((addWithin_eq_ok (by omega)).mp hq).nodes_le
      simp only [Job.size] at hnodes
      omega
    | eq m l r =>
      rw [next, addWithin]
      split
      · next hl =>
        rw [← replacement_of_gives hl, replaceAll_eq]
        refine .bind (reaches_foldlM_under (fun p t tasks => ih tasks) ?_) fun q _ =>
          .head (.refl _)
        simp only [Term.size] at hn
        rw [nodes_empty, sum_size_terms (p := p)]
        omega
      · exact .refl _
    | _ => exact .refl _

end Stage

/-! ## The bound on steps -/

/-- The number of nodes that a task brings along. -/
def Task.size : Task → Nat
  | .add t | .rewrite _ t | .store t => t.size

/-- A bound on the steps of a task when so many nodes are stored.  A fact that is only stored
must not be counted like one that is added: what is rewritten before it takes the place of
its addition. -/
def Task.bound (n : Nat) : Task → Nat
  | .add t => 2 ^ (n + t.size)
  | .rewrite _ c => 2 ^ (n + c.size) + 1
  | .store _ => 1

/-- A bound on the steps of tasks, one after the other, when so many nodes are stored. -/
def bound : Nat → List Task → Nat
  | _, [] => 0
  | n, x :: tasks => x.bound n + bound (n + x.size) tasks
termination_by structural _ tasks => tasks

namespace Stage

variable {m : Stage} {tasks : List Task}

/-- A bound on the steps that are left. -/
def bound : Stage → Nat
  | running p tasks => PathCondition.bound p.nodes tasks
  | aborted _ => 0

end Stage

theorem Task.bound_mono (h : n ≤ k) (x : Task) : x.bound n ≤ x.bound k := by
  have hpow : ∀ s, 2 ^ (n + s) ≤ 2 ^ (k + s) := fun s =>
    Nat.pow_le_pow_right (by decide) (Nat.add_le_add_right h s)
  cases x with
  | add t => exact hpow t.size
  | rewrite f c => exact Nat.succ_le_succ (hpow c.size)
  | store t => exact Nat.le_refl _

/-- There is less to do where less is stored. -/
theorem bound_mono (h : n ≤ k) (tasks : List Task) : bound n tasks ≤ bound k tasks := by
  induction tasks generalizing n k with
  | nil => exact Nat.le_refl _
  | cons x tasks ih => exact Nat.add_le_add (x.bound_mono h) (ih (Nat.add_le_add_right h _))

theorem bound_insert_le (p : PathCondition) (t : Node) (tasks : List Task) :
    bound (p.insert t).nodes tasks ≤ bound (p.nodes + t.size) tasks :=
  bound_mono nodes_insert_le tasks

/-- To rewrite constraints and to go on takes at most three times two to the power of all
nodes, besides what it takes to go on. -/
theorem bound_rewrite_le (f : Node) (cs : List Node) (n : Nat) (tasks : List Task) :
    bound n (cs.map (.rewrite f) ++ tasks) + 3 * 2 ^ n ≤
      3 * 2 ^ (n + (cs.map Term.size).sum) + bound (n + (cs.map Term.size).sum) tasks := by
  induction cs generalizing n with
  | nil => exact Nat.le_of_eq (Nat.add_comm _ _)
  | cons c cs ih =>
    have hrest := ih (n + c.size)
    have hdouble : 2 * 2 ^ n ≤ 2 ^ (n + c.size) := by
      rw [← Nat.pow_succ']
      exact Nat.pow_le_pow_right (by decide) (Nat.add_le_add_left c.size_pos n)
    have hpos : 0 < 2 ^ n := Nat.two_pow_pos n
    simp only [List.map_cons, List.cons_append, List.sum_cons, bound, Task.bound, Task.size,
      ← Nat.add_assoc] at hrest ⊢
    omega

/-- To have everything rewritten and then to store the fact takes fewer steps than the fact
may take. -/
theorem bound_learn_lt (p : PathCondition) (hf : 2 ≤ f.size) (tasks : List Task) :
    bound 0 (p.terms.map (.rewrite f) ++ .store f :: tasks) <
      bound p.nodes (.add f :: tasks) := by
  have hrewrite := bound_rewrite_le f p.terms 0 (.store f :: tasks)
  have hpow : 2 ^ (p.nodes + 2) ≤ 2 ^ (p.nodes + f.size) :=
    Nat.pow_le_pow_right (by decide) (Nat.add_le_add_left hf _)
  have hpos : 0 < 2 ^ p.nodes := Nat.two_pow_pos _
  rw [Nat.pow_add] at hpow
  simp only [sum_size_terms, Nat.zero_add, bound, Task.bound, Task.size] at hrewrite ⊢
  omega

/-- The two sides of a conjunction take fewer steps than the conjunction may take. -/
theorem bound_split_lt (m : Label) (x y : Node) (n : Nat) (tasks : List Task) :
    bound n (.add x :: .add y :: tasks) < bound n (.add (.and m x y) :: tasks) := by
  have hfirst : 2 ^ (n + x.size) < 2 ^ (n + x.size + y.size) :=
    Nat.pow_lt_pow_right (by decide) (Nat.lt_add_of_pos_right y.size_pos)
  have hrest : bound (n + x.size + y.size) tasks ≤ bound (n + x.size + y.size + 1) tasks :=
    bound_mono (Nat.le_succ _) tasks
  simp only [bound, Task.bound, Task.size, Term.size, ← Nat.add_assoc, Nat.pow_succ]
  omega

theorem bound_add_pos (t : Node) : 0 < (Task.add t).bound n := Nat.two_pow_pos _

namespace Stage

/-- The step lemma: the bound falls with each step. -/
theorem bound_next_lt (p : PathCondition) (x : Task) (tasks : List Task) :
    (running p (x :: tasks)).next.bound < (running p (x :: tasks)).bound := by
  cases x with
  | add t =>
    have hpos := bound_add_pos (n := p.nodes) t
    have hinsert : (running (p.insert t) tasks).bound < (running p (.add t :: tasks)).bound :=
      Nat.lt_of_le_of_lt (bound_insert_le p t tasks) (Nat.lt_add_of_pos_left hpos)
    cases t with
    | constant m v w =>
      rw [next]
      split
      · exact Nat.lt_of_lt_of_le hpos (Nat.le_add_right _ _)
      · exact Nat.lt_of_le_of_lt (bound_mono (Nat.le_add_right _ _) tasks)
          (Nat.lt_add_of_pos_left hpos)
    | and m x y => exact bound_split_lt m x y p.nodes tasks
    | eq m l r =>
      rw [next]
      split
      · have hsize : 2 ≤ (Term.eq m l r).size :=
          Nat.succ_le_succ (Nat.le_add_right_of_le l.size_pos)
        exact bound_learn_lt p hsize tasks
      · exact hinsert
    | _ => exact hinsert
  | rewrite f c =>
    rw [next]
    split
    · exact Nat.lt_of_le_of_lt (bound_insert_le p c tasks)
        (Nat.lt_add_of_pos_left (Nat.succ_pos _))
    · have hsize : p.nodes + (under f c).size ≤ p.nodes + c.size :=
        Nat.add_le_add_left (size_under_le f c) _
      have hpow : 2 ^ (p.nodes + (under f c).size) ≤ 2 ^ (p.nodes + c.size) :=
        Nat.pow_le_pow_right (by decide) hsize
      have hrest := bound_mono hsize tasks
      simp only [bound, PathCondition.bound, Task.bound, Task.size]
      omega
  | store t =>
    exact Nat.lt_of_le_of_lt (bound_insert_le p t tasks) (Nat.lt_add_of_pos_left Nat.one_pos)

theorem finished_or_bound_next_lt (m : Stage) : (∃ r, m = finished r) ∨ m.next.bound < m.bound := by
  cases m with
  | aborted e => exact .inl ⟨.error e, rfl⟩
  | running p tasks =>
    cases tasks with
    | nil => exact .inl ⟨.ok p, rfl⟩
    | cons x tasks => exact .inr (bound_next_lt p x tasks)

/-- The run lemma: from each stage the steps end, and not after more than the bound. -/
theorem exists_finished (m : Stage) : ∃ n ≤ m.bound, ∃ r, next^[n] m = finished r := by
  induction hb : m.bound using Nat.strongRecOn generalizing m with
  | _ b ih =>
    obtain ⟨r, hr⟩ | hlt := finished_or_bound_next_lt m
    · exact ⟨0, Nat.zero_le _, r, hr⟩
    · rw [hb] at hlt
      obtain ⟨n, hn, r, hr⟩ := ih _ hlt _ rfl
      exact ⟨n + 1, Nat.succ_le_of_lt (Nat.lt_of_le_of_lt hn hlt), r, hr⟩

/-- A last stage that is reached at all is reached within the bound. -/
theorem Reaches.within {r : Except Abort PathCondition} (h : Reaches m (finished r)) :
    ∃ n ≤ m.bound, next^[n] m = finished r := by
  obtain ⟨n, hn, r', hr'⟩ := exists_finished m
  obtain ⟨k, hk⟩ := h
  refine ⟨n, hn, ?_⟩
  -- Both are still there after the steps of both.
  have hend := Function.iterate_fixed (next_finished r) n
  have hend' := Function.iterate_fixed (next_finished r') k
  rw [← hk, ← Function.iterate_add_apply] at hend
  rw [← hr', ← Function.iterate_add_apply, Nat.add_comm, hend, hk] at hend'
  exact hend'.symm

end Stage

open Stage

theorem simplify_size_le (p : PathCondition) (t : Node) : (p.simplify t).size ≤ t.size := by
  rw [simplify]
  split
  · exact Nat.le_refl _
  · refine replaceNode_size_le (fun e r hr => ?_) t
    rw [size_of_isConstant (isConstant_of_replacements hr)]
    exact e.size_pos

theorem addSimplified_ends (p : PathCondition) (t : Node) : ∃ n ≤ 2 ^ (p.nodes + t.size),
    next^[n] (.running p [.add t]) = finished (p.addSimplified t) :=
  (reaches_addWithin [] (Nat.lt_succ_self _)).within

theorem assume_ends (p : PathCondition) (t : Node) : ∃ n ≤ 3 * 2 ^ p.nodes,
    next^[n] (.running ∅ (p.terms.map (.rewrite t))) = finished (p.assume t) := by
  have hreaches : Reaches (.running ∅ (p.terms.map (.rewrite t) ++ []))
      (finished (p.assume t)) := by
    rw [assume, replaceAll_eq]
    refine reaches_foldlM_under (fun p t tasks => reaches_addWithin tasks) ?_
    rw [nodes_empty, sum_size_terms]
    omega
  have hbound := bound_rewrite_le t p.terms 0 []
  rw [sum_size_terms, Nat.zero_add] at hbound
  rw [List.append_nil] at hreaches hbound
  obtain ⟨n, hn, hfinished⟩ := hreaches.within
  exact ⟨n, Nat.le_trans hn (Nat.le_trans (Nat.le_add_right _ _) hbound), hfinished⟩

/-- Adding ends, whatever is stored and whatever is added.  At each stage, and so in each
rewriting that begins inside another one, every step but the last lowers the bound, and the
steps end within it.  To add a constraint, simplified before or not, they end with the result
of adding it, a path condition or an abort, and there are at most two to the power of all
nodes.  To rewrite what is stored under a fact that is not stored itself, they end with the
result of that. -/
theorem adding_ends :
    (∀ m : Stage, ((∃ r, m = finished r) ∨ m.next.bound < m.bound) ∧
      ∃ n ≤ m.bound, ∃ r, next^[n] m = finished r) ∧
    ∀ (p : PathCondition) (t : Node),
      (∃ n ≤ 2 ^ (p.nodes + t.size),
        next^[n] (.running p [.add t]) = finished (p.addSimplified t)) ∧
      (∃ n ≤ 2 ^ (p.nodes + t.size),
        next^[n] (.running p [.add (p.simplify t)]) = finished (p.add t)) ∧
      ∃ n ≤ 3 * 2 ^ p.nodes,
        next^[n] (.running ∅ (p.terms.map (.rewrite t))) = finished (p.assume t) := by
  refine ⟨fun m => ⟨finished_or_bound_next_lt m, exists_finished m⟩, fun p t =>
    ⟨addSimplified_ends p t, ?_, assume_ends p t⟩⟩
  obtain ⟨n, hn, hfinished⟩ := addSimplified_ends p (p.simplify t)
  have hpow : 2 ^ (p.nodes + (p.simplify t).size) ≤ 2 ^ (p.nodes + t.size) :=
    Nat.pow_le_pow_right (by decide) (Nat.add_le_add_left (simplify_size_le p t) _)
  exact ⟨n, Nat.le_trans hn hpow, hfinished⟩

end PmemPaths.Symbolic.PathCondition
