import PmemPaths.Proofs.Nvm.Transfer

/-!
# What is learned of values

A run learns of one value after the other whether it is persistent memory.  What is
known then depends on what was learned last of each value and on nothing else
(`Facts.updates_congr`).  So the facts of an activation are a store in which the last
writer wins, and each write moves all answers in one direction
(`Session.updates_lastWins`).

What a callee learns of globals is told to its caller when it returns, but only one half
of it.  The globals that the callee knows as volatile are added to those of the caller
(`Session.notGlobal_doReturn`).  A global that the caller knows as volatile and that the
callee learned to be persistent stays volatile for the caller
(`Session.notGlobal_doReturn_persistent`).
-/

namespace PmemPaths.Nvm

open PmemPaths.Ir
open PmemPaths.PointsTo (Objects)

variable {a : Analysis}

namespace Facts

variable {m : Module} {d e : Facts} {learned final : List (ValueId × Bool)} {s : Objects}
  {v w : ValueId} {b : Bool}

/-! ## What was learned last -/

/-- What was learned last of a value. -/
def lastLearned (learned : List (ValueId × Bool)) (v : ValueId) : Option Bool :=
  learned.reverse.lookup v

/-- What was learned, without what was learned anew later. -/
def lastOnly : List (ValueId × Bool) → List (ValueId × Bool)
  | [] => []
  | (v, b) :: learned =>
    if (lastLearned learned v).isSome then lastOnly learned else (v, b) :: lastOnly learned
termination_by structural learned => learned

theorem lastLearned_cons :
    lastLearned ((w, b) :: learned) v =
      (lastLearned learned v).or (if v = w then some b else none) := by
  rw [lastLearned, List.reverse_cons, List.lookup_append, List.lookup_cons, List.lookup_nil,
    lastLearned]
  by_cases hvw : v = w
  · rw [if_pos hvw, beq_iff_eq.mpr hvw]
  · rw [if_neg hvw, beq_eq_false_iff_ne.mpr hvw]

theorem mem_of_lastLearned (h : lastLearned learned v = some b) : (v, b) ∈ learned := by
  obtain ⟨later, earlier, heq, -⟩ := List.lookup_eq_some_iff.mp h
  rw [← List.mem_reverse, heq]
  exact List.mem_append_right _ List.mem_cons_self

theorem exists_lastLearned (h : (v, b) ∈ learned) : ∃ b', lastLearned learned v = some b' := by
  refine Option.isSome_iff_exists.mp (List.lookup_isSome_iff.mpr ⟨(v, b), ?_, beq_self_eq_true v⟩)
  exact List.mem_reverse.mpr h

theorem mem_lastOnly : (v, b) ∈ lastOnly learned ↔ lastLearned learned v = some b := by
  induction learned with
  | nil => simp [lastOnly, lastLearned]
  | cons e learned ih =>
    obtain ⟨w, c⟩ := e
    rw [lastOnly, lastLearned_cons]
    by_cases hvw : v = w
    · subst hvw
      cases hlast : lastLearned learned v with
      | none => simp [ih, hlast, eq_comm]
      | some b' => simp [ih, hlast]
    · split
      · simp [ih]
      · simp [ih, hvw]

/-- The last words on all values, in any order, are themselves the last words. -/
theorem lastLearned_of_perm (h : final.Perm (lastOnly learned)) :
    lastLearned final v = lastLearned learned v := by
  cases hfinal : lastLearned final v with
  | some b => exact (mem_lastOnly.mp (h.mem_iff.mp (mem_of_lastLearned hfinal))).symm
  | none =>
    cases hlast : lastLearned learned v with
    | none => rfl
    | some b =>
      obtain ⟨b', hb'⟩ := exists_lastLearned (h.mem_iff.mpr (mem_lastOnly.mpr hlast))
      rw [hfinal] at hb'
      cases hb'

/-! ## What is known then -/

theorem mem_put : w ∈ put s v b ↔ if w = v then b = true else w ∈ s := by
  cases b with
  | true =>
    rw [put, Std.ExtTreeSet.mem_insert, Std.LawfulEqCmp.compare_eq_iff_eq, eq_comm]
    split <;> simp [*]
  | false =>
    rw [put, Std.ExtTreeSet.mem_erase, Ne, Std.LawfulEqCmp.compare_eq_iff_eq, eq_comm]
    split <;> simp [*]

/-- One of the sets of known values.  News about a value that concerns the set puts the
value in or takes it out. -/
def Written (m : Module) (known : Facts → Objects) (concerns : ValueId → Bool) (yes : Bool) :
    Prop :=
  ∀ d v b, known (d.update m v b) =
    if concerns v = true then put (known d) v (b == yes) else known d

theorem written_allocs : Written m allocs m.isCall true := by
  intro d v b
  cases b <;> rfl

theorem written_notLocal : Written m notLocal (fun v => !m.isGlobal v) false := by
  intro d v b
  cases hv : m.isGlobal v <;> cases b <;> simp [update, hv]

theorem written_notGlobal : Written m notGlobal m.isGlobal false := by
  intro d v b
  cases b <;> rfl

namespace Written

variable {known : Facts → Objects} {concerns : ValueId → Bool} {yes : Bool}

theorem mem_update (h : Written m known concerns yes) : w ∈ known (d.update m v b) ↔
    if w = v ∧ concerns w = true then b = yes else w ∈ known d := by
  rw [h]
  by_cases hwv : w = v
  · subst hwv
    split <;> simp [*, mem_put]
  · split <;> simp [hwv, mem_put]

/-- What a set holds in the end is what was learned last of each value that concerns it. -/
theorem mem_updates (h : Written m known concerns yes) : w ∈ known (d.updates m learned) ↔
    if concerns w = true then (lastLearned learned w).elim (w ∈ known d) (· = yes)
    else w ∈ known d := by
  induction learned generalizing d with
  | nil => simp [updates, lastLearned]
  | cons e learned ih =>
    obtain ⟨v, b⟩ := e
    have hupdates : d.updates m ((v, b) :: learned) = (d.update m v b).updates m learned := rfl
    rw [hupdates, ih, h.mem_update, lastLearned_cons]
    cases lastLearned learned w with
    | some b' => by_cases hw : concerns w = true <;> simp [hw]
    | none => by_cases hw : concerns w = true <;> by_cases hwv : w = v <;> simp [hw, hwv]

theorem grows (h : Written m known concerns yes) (hw : w ∈ known d) :
    w ∈ known (d.update m v yes) := by
  rw [h.mem_update]
  split
  · rfl
  · exact hw

theorem shrinks (h : Written m known concerns yes) (hb : b ≠ yes)
    (hw : w ∈ known (d.update m v b)) : w ∈ known d := by
  rw [h.mem_update] at hw
  split at hw
  · exact absurd hw hb
  · exact hw

end Written

theorem eq_of_mem (hallocs : ∀ w, w ∈ d.allocs ↔ w ∈ e.allocs)
    (hlocal : ∀ w, w ∈ d.notLocal ↔ w ∈ e.notLocal)
    (hglobal : ∀ w, w ∈ d.notGlobal ↔ w ∈ e.notGlobal) : d = e := by
  obtain ⟨allocs, notLocal, notGlobal⟩ := d
  obtain rfl := Std.ExtTreeSet.ext_mem hallocs
  obtain rfl := Std.ExtTreeSet.ext_mem hlocal
  obtain rfl := Std.ExtTreeSet.ext_mem hglobal
  rfl

/-- What is known depends on what was learned last of each value. -/
theorem updates_congr (h : ∀ v, lastLearned learned v = lastLearned final v) :
    d.updates m learned = d.updates m final := by
  refine eq_of_mem (fun w => ?allocs) (fun w => ?notLocal) (fun w => ?notGlobal)
  case allocs => rw [written_allocs.mem_updates, written_allocs.mem_updates, h]
  case notLocal => rw [written_notLocal.mem_updates, written_notLocal.mem_updates, h]
  case notGlobal => rw [written_notGlobal.mem_updates, written_notGlobal.mem_updates, h]

/-! ## Answers move in one direction -/

/-- Who knows more sites and rules out fewer values answers yes more often. -/
theorem mayPoint_mono (hallocs : ∀ w ∈ d.allocs, w ∈ e.allocs)
    (hlocal : ∀ w ∈ e.notLocal, w ∈ d.notLocal) (hglobal : ∀ w ∈ e.notGlobal, w ∈ d.notGlobal) :
    d.mayPoint a v ≤ e.mayPoint a v := by
  intro h
  obtain ⟨hvlocal, hvglobal, hmeets⟩ := mayPoint_iff.mp h
  obtain ⟨o, ho, halloc⟩ := meets_iff.mp hmeets
  exact mayPoint_iff.mpr ⟨fun hv => hvlocal (hlocal v hv), fun hv => hvglobal (hglobal v hv),
    meets_iff.mpr ⟨o, ho, hallocs o halloc⟩⟩

/-- To learn that a value is persistent turns no answer into no. -/
theorem mayPoint_le_update_true : d.mayPoint a w ≤ (d.update m v true).mayPoint a w :=
  mayPoint_mono (fun _ => written_allocs.grows)
    (fun _ => written_notLocal.shrinks (by decide))
    (fun _ => written_notGlobal.shrinks (by decide))

/-- To learn that a value is volatile turns no answer into yes. -/
theorem mayPoint_update_false_le : (d.update m v false).mayPoint a w ≤ d.mayPoint a w :=
  mayPoint_mono (fun _ => written_allocs.shrinks (by decide))
    (fun _ => written_notLocal.grows) (fun _ => written_notGlobal.grows)

/-- A value that is learned to be volatile is ruled out. -/
theorem mayPoint_update_self : (d.update m v false).mayPoint a v = false := by
  rw [Bool.eq_false_iff]
  intro h
  obtain ⟨hlocal, hglobal, -⟩ := mayPoint_iff.mp h
  rw [written_notLocal.mem_update] at hlocal
  rw [written_notGlobal.mem_update] at hglobal
  cases hv : m.isGlobal v with
  | true => simp [hv] at hglobal
  | false => simp [hv] at hlocal

/-! ## Globals across a call -/

theorem notGlobal_onEntry {call : ValueId} {f : FunctionId} :
    (d.onEntry a call f).notGlobal = d.notGlobal := by
  rw [onEntry]
  split <;> rfl

theorem mem_notGlobal_onReturn {ret call : ValueId} :
    w ∈ (d.onReturn a e ret call).notGlobal ↔ w ∈ e.notGlobal ∨ w ∈ d.notGlobal := by
  rw [onReturn, Std.ExtTreeSet.mem_insertMany_list, List.contains_iff_mem,
    Std.ExtTreeSet.mem_toList]

end Facts

namespace Session

/-- What is known depends on what was learned last of each value, in any order.  A
descriptor that learns nothing new is itself.  To learn that a value is volatile rules it
out and turns no answer into yes, and to learn that it is persistent turns none into no. -/
theorem updates_lastWins (d : Descriptor) :
    (∀ learned final : List (ValueId × Bool), final.Perm (Facts.lastOnly learned) →
      ∀ s s' : Session a, (updates d learned s).1.value = (updates d final s').1.value) ∧
    (∀ v isNvm (s : Session a),
      (update d v isNvm s).1 = d ↔ (update d v isNvm s).1.value = d.value) ∧
    ∀ v w (s s' s'' : Session a),
      (mayPoint (update d v false s).1.value v s').1 = false ∧
        (mayPoint (update d v false s).1.value w s').1 ≤ (mayPoint d.value w s'').1 ∧
        (mayPoint d.value w s'').1 ≤ (mayPoint (update d v true s).1.value w s').1 := by
  refine ⟨fun learned final h s s' => ?_, fun v isNvm s => ⟨congrArg _, fun h => ?_⟩,
    fun v w s s' s'' => ?_⟩
  · rw [(updates_quiet s).2, (updates_quiet s').2]
    exact Facts.updates_congr fun v => (Facts.lastLearned_of_perm h).symm
  · rw [(update_quiet s).2] at h
    rw [update, share, if_pos h]
    rfl
  · simp only [mayPoint_quiet.answer, (update_quiet s).2]
    exact ⟨Facts.mayPoint_update_self, Facts.mayPoint_update_false_le,
      Facts.mayPoint_le_update_true⟩

/-- What is learned of a call and of a global, each twice, and of a parameter. -/
theorem updates_lastWins_mixed : ∃ m, allocatorWrapper.build = .ok m ∧
    ∀ share (s s' : Session (.solved m share)),
      let learned := [(⟨5⟩, true), (⟨0⟩, false), (⟨5⟩, false), (⟨3⟩, false), (⟨0⟩, true)]
      let final := [(⟨0⟩, true), (⟨3⟩, false), (⟨5⟩, false)]
      final.Perm (Facts.lastOnly learned) ∧
        (updates (wrapperStart m [⟨5⟩]) learned s).1.value =
          (updates (wrapperStart m [⟨5⟩]) final s').1.value := by
  obtain ⟨m, hl, -⟩ := Listing.exists_build (l := allocatorWrapper) (p := fun _ => True)
    (by decide +kernel)
  refine ⟨m, hl, fun share s s' => ?_⟩
  have hperm : [(⟨0⟩, true), (⟨3⟩, false), (⟨5⟩, false)].Perm (Facts.lastOnly
      [(⟨5⟩, true), (⟨0⟩, false), (⟨5⟩, false), (⟨3⟩, false), (⟨0⟩, true)]) := by decide
  exact ⟨hperm, (updates_lastWins (wrapperStart m [⟨5⟩])).1 _ _ hperm s s'⟩

/-- The caller keeps what it knows of globals and adds those that the callee learned last
to be volatile.  So it knows what the callee knows, unless the callee learned that a
global is persistent which the caller knows as volatile. -/
theorem notGlobal_doReturn (c : Descriptor) (call : ValueId) (f : FunctionId)
    (learned : List (ValueId × Bool)) (ret : ValueId) (s s₁ s₂ : Session a) :
    let d := (updates (doCall c call f s).1 learned s₁).1
    let after := (doReturn d c ret call s₂).1
    (∀ g, g ∈ after.value.notGlobal ↔ g ∈ c.value.notGlobal ∨
      a.module.isGlobal g = true ∧ Facts.lastLearned learned g = some false) ∧
    (after.value.notGlobal = d.value.notGlobal ↔ ∀ g ∈ c.value.notGlobal,
      a.module.isGlobal g = true → Facts.lastLearned learned g ≠ some true) := by
  intro d after
  have hd (g : ValueId) : g ∈ d.value.notGlobal ↔
      if a.module.isGlobal g = true then
        (Facts.lastLearned learned g).elim (g ∈ c.value.notGlobal) (· = false)
      else g ∈ c.value.notGlobal := by
    rw [(updates_quiet s₁).2, Facts.written_notGlobal.mem_updates, (doCall_quiet s).2,
      Facts.notGlobal_onEntry]
  have hafter (g : ValueId) :
      g ∈ after.value.notGlobal ↔ g ∈ c.value.notGlobal ∨ g ∈ d.value.notGlobal := by
    rw [(doReturn_quiet s₂).2, Facts.mem_notGlobal_onReturn]
  have hkept (g : ValueId) (hg : g ∈ c.value.notGlobal) : g ∈ d.value.notGlobal ↔
      (a.module.isGlobal g = true → Facts.lastLearned learned g ≠ some true) := by
    rw [hd]
    cases a.module.isGlobal g with
    | false => simp [hg]
    | true => cases Facts.lastLearned learned g <;> simp [hg]
  refine ⟨fun g => ?_, ?_⟩
  · rw [hafter, hd]
    cases a.module.isGlobal g with
    | false => simp
    | true => cases Facts.lastLearned learned g <;> simp
  · constructor
    · intro heq g hg
      rw [← hkept g hg, ← heq, hafter]
      exact .inl hg
    · intro h
      refine Std.ExtTreeSet.ext_mem fun g => (hafter g).trans (or_iff_right_of_imp fun hg => ?_)
      exact (hkept g hg).mpr (h g hg)

/-- The caller knows the global as volatile, and the callee learns that it is persistent.
After the return the caller knows it as volatile still. -/
theorem notGlobal_doReturn_persistent : ∃ m, allocatorWrapper.build = .ok m ∧
    ∀ share (s₀ s s₁ s₂ : Session (.solved m share)),
      let c := (update (wrapperStart m []) ⟨0⟩ false s₀).1
      let d := (updates (doCall c ⟨7⟩ ⟨1⟩ s).1 [(⟨0⟩, true)] s₁).1
      m.calledFunction? ⟨7⟩ = some ⟨1⟩ ∧ m.isReturn ⟨6⟩ = true ∧
        ⟨0⟩ ∉ d.value.notGlobal ∧ ⟨0⟩ ∈ (doReturn d c ⟨6⟩ ⟨7⟩ s₂).1.value.notGlobal := by
  obtain ⟨m, hl, hcall, hret, hglobal⟩ := Listing.exists_build (l := allocatorWrapper)
    (p := fun m => m.calledFunction? ⟨7⟩ = some ⟨1⟩ ∧ m.isReturn ⟨6⟩ ∧ m.isGlobal ⟨0⟩)
    (by decide +kernel)
  refine ⟨m, hl, fun share s₀ s s₁ s₂ => ⟨hcall, hret, ?_, ?_⟩⟩
  · have hsolved : (Analysis.solved m share).module.isGlobal ⟨0⟩ = true := hglobal
    rw [(updates_quiet s₁).2, Facts.written_notGlobal.mem_updates, if_pos hsolved]
    exact Bool.noConfusion
  · rw [(doReturn_quiet s₂).2, Facts.mem_notGlobal_onReturn, (update_quiet s₀).2,
      Facts.written_notGlobal.mem_update, if_pos ⟨rfl, hglobal⟩]
    exact .inl rfl

end Session

end PmemPaths.Nvm
