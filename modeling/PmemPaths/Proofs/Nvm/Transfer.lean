import PmemPaths.Proofs.Ir.ControlFlow
import PmemPaths.Proofs.Nvm.Answers
import PmemPaths.Proofs.PointsTo.Calls

/-!
# What calls tell callees and callers

The facts of an activation start with what allocates persistent memory, and change when
a call is entered, when it returns, and when the run learns something (`Reached`).

Entering a call passes on exactly what is known of the arguments: a parameter may point
to persistent memory in the callee if the argument may in the caller
(`mayPoint_doCall`).  One half is the callee's list of exceptions, the other half is
that whatever the argument may point to, the parameter may point to.

Returning passes less on.  The result of the call may point to persistent memory in the
caller if the returned value may in the callee *and* the caller knows of a persistent
site among those of the call (`mayPoint_doReturn`).  A site that the callee found out
about stays with the callee: then the returned value may point to persistent memory and
the result may not (`mayPoint_doReturn_wrapper`).
-/

namespace PmemPaths.Nvm

open PmemPaths.Ir
open PmemPaths.PointsTo (Objects Solution)

variable {a : Analysis} {d c : Descriptor} {v x y call : ValueId}

/-! ## Values that are no globals -/

section Values

variable {m : Module} {f : FunctionId} {fn : Function}

theorem value?_of_isCall (h : m.isCall call = true) :
    ∃ i name, m.value? call = some ⟨.instruction i, name⟩ := by
  obtain ⟨op, hop, -⟩ := (Option.any_eq_true _ _).mp h
  obtain ⟨i, hi, -⟩ := Option.map_eq_some_iff.mp hop
  exact ⟨i, Module.instruction?_eq_some.mp hi⟩

theorem isGlobal_of_isCall (h : m.isCall call = true) : m.isGlobal call = false := by
  obtain ⟨i, name, hv⟩ := value?_of_isCall h
  rw [Module.isGlobal, hv]
  rfl

theorem isGlobal_of_param (hm : m.Listed) (hf : m.function? f = some fn) (hx : x ∈ fn.params) :
    m.isGlobal x = false := by
  obtain ⟨i, name, hv⟩ := hm.param f fn hf x hx
  rw [Module.isGlobal, hv]
  rfl

end Values

/-! ## Facts that are reached -/

/-- A program with what its pointers are found to point to. -/
def Analysis.solved (m : Module) (share : Bool) : Analysis where
  module := m
  pointsTo := (Solution.unlimited m share).pointsTo

/-- The facts that come up: those at first, on entry, after a return, and after
learning something. -/
inductive Reached (a : Analysis) : Descriptor → Prop
  | initial (id : Nat) (names : List String) (sites : List ValueId) :
      Reached a ⟨id, .initial a.module names sites⟩
  | doCall {d : Descriptor} (s : Session a) (call : ValueId) (callee : FunctionId) :
      Reached a d → Reached a (Session.doCall d call callee s).1
  | doReturn {callee caller : Descriptor} (s : Session a) (ret call : ValueId) :
      Reached a callee → Reached a caller → Reached a (Session.doReturn callee caller ret call s).1
  | update {d : Descriptor} (s : Session a) (v : ValueId) (isNvm : Bool) :
      Reached a d → Reached a (Session.update d v isNvm s).1

/-- Only globals are known as volatile globals. -/
theorem Reached.isGlobal (h : Reached a d) (hv : v ∈ d.value.notGlobal) :
    a.module.isGlobal v = true := by
  induction h with
  | initial id names sites => exact absurd hv Std.ExtTreeSet.not_mem_empty
  | doCall s call callee _ ih =>
    rw [(Session.doCall_quiet s).2, Facts.onEntry] at hv
    split at hv
    · exact ih hv
    · exact ih hv
  | doReturn s ret call _ _ ihcallee ihcaller =>
    rw [(Session.doReturn_quiet s).2, Facts.onReturn] at hv
    rcases Std.ExtTreeSet.mem_insertMany_list.mp hv with hv | hv
    · exact ihcaller hv
    · rw [List.contains_iff_mem, Std.ExtTreeSet.mem_toList] at hv
      exact ihcallee hv
  | update s w isNvm _ ih =>
    rw [(Session.update_quiet s).2, Facts.update] at hv
    dsimp only at hv
    split at hv
    · next hw =>
      cases isNvm with
      | true => exact ih (Std.ExtTreeSet.mem_of_mem_erase hv)
      | false =>
        rcases Std.ExtTreeSet.mem_insert.mp hv with heq | hv
        · rwa [← Std.LawfulEqCmp.compare_eq_iff_eq.mp heq]
        · exact ih hv
    · exact ih hv

namespace Facts

/-! ## When a value may point to persistent memory -/

theorem meets_iff {d : Facts} {objects : Objects} :
    d.meets objects = true ↔ ∃ o ∈ objects, o ∈ d.allocs := by
  rw [meets]
  split
  · simp [List.any_eq_true, Std.ExtTreeSet.mem_toList]
  · simp [List.any_eq_true, Std.ExtTreeSet.mem_toList, and_comm]

theorem mem_sites {o : ValueId} :
    o ∈ a.sites v ↔ o ∈ a.pointsTo v ∧ a.module.isAllocationSite o = true := by
  rw [Analysis.sites, Std.ExtTreeSet.mem_filter]
  constructor
  · rintro ⟨ho, hsite⟩
    refine ⟨ho, ?_⟩
    rwa [Std.ExtTreeSet.get_eq] at hsite
  · rintro ⟨ho, hsite⟩
    refine ⟨ho, ?_⟩
    rwa [Std.ExtTreeSet.get_eq]

theorem mayPoint_iff {d : Facts} : d.mayPoint a v = true ↔
    v ∉ d.notLocal ∧ v ∉ d.notGlobal ∧ d.meets (a.sites v) = true := by
  rw [mayPoint, excludes, Bool.and_eq_true, Bool.not_eq_true', Bool.or_eq_false_iff, and_assoc]
  simp only [← Bool.not_eq_true, Std.ExtTreeSet.contains_iff_mem]

theorem mayPoint_of_allocs_eq_empty {d : Facts} (h : d.allocs = ∅) : d.mayPoint a v = false := by
  rw [Bool.eq_false_iff]
  intro hmay
  obtain ⟨o, -, ho⟩ := meets_iff.mp (mayPoint_iff.mp hmay).2.2
  rw [h] at ho
  exact Std.ExtTreeSet.not_mem_empty ho

/-- Values that may point to more may point to persistent memory, unless that is ruled
out. -/
theorem meets_sites_of_subset {d : Facts} (hsub : ∀ o, o ∈ a.pointsTo y → o ∈ a.pointsTo x)
    (h : d.meets (a.sites y) = true) : d.meets (a.sites x) = true := by
  obtain ⟨o, ho, halloc⟩ := meets_iff.mp h
  obtain ⟨ho, hsite⟩ := mem_sites.mp ho
  exact meets_iff.mpr ⟨o, mem_sites.mpr ⟨hsub o ho, hsite⟩, halloc⟩

/-! ## Entering calls -/

theorem mem_volatileParams {d : Facts} {pairs : List (ValueId × ValueId)} :
    x ∈ d.volatileParams a pairs ↔ ∃ y, (x, y) ∈ pairs ∧ d.mayPoint a y = false := by
  rw [volatileParams, List.mem_map]
  constructor
  · rintro ⟨⟨x', y⟩, hmem, rfl⟩
    obtain ⟨hmem, hnot⟩ := List.mem_filter.mp hmem
    exact ⟨y, hmem, by simpa using hnot⟩
  · rintro ⟨y, hmem, hnot⟩
    exact ⟨(x, y), List.mem_filter.mpr ⟨hmem, by simp [hnot]⟩, rfl⟩

/-- A parameter stands for one argument. -/
theorem snd_eq_of_mem_zip {xs ys : List ValueId} {y' : ValueId} (hnodup : xs.Nodup)
    (h : (x, y) ∈ xs.zip ys) (h' : (x, y') ∈ xs.zip ys) : y = y' := by
  obtain ⟨i, hi⟩ := List.getElem?_of_mem h
  obtain ⟨j, hj⟩ := List.getElem?_of_mem h'
  obtain ⟨hxi, hyi⟩ := List.getElem?_zip_eq_some.mp hi
  obtain ⟨hxj, hyj⟩ := List.getElem?_zip_eq_some.mp hj
  obtain rfl : i = j := by
    obtain ⟨hlt, heq⟩ := List.getElem?_eq_some_iff.mp hxi
    obtain ⟨hlt', heq'⟩ := List.getElem?_eq_some_iff.mp hxj
    exact (List.getElem_inj hnodup).mp (heq.trans heq'.symm)
  exact Option.some.inj (hyi.symm.trans hyj)

/-- What is known of a parameter on entry is what is known of its argument, where the
parameter may point to whatever the argument may. -/
theorem mayPoint_onEntry {d : Facts} {f : FunctionId} {fn : Function}
    (hcall : a.module.isCall call = true) (hf : a.module.function? f = some fn)
    (hnodup : fn.params.Nodup) (hlocal : x ∉ d.notGlobal)
    (hxy : (x, y) ∈ fn.params.zip (a.module.callArgs call))
    (hsub : ∀ o, o ∈ a.pointsTo y → o ∈ a.pointsTo x) :
    (d.onEntry a call f).mayPoint a x = d.mayPoint a y := by
  have hpassed : passed a.module call f = fn.params.zip (a.module.callArgs call) := by
    rw [passed, hf]
    rfl
  have hvolatile : x ∉ (d.onEntry a call f).notLocal ↔ d.mayPoint a y = true := by
    rw [onEntry, if_pos hcall, hpassed, Std.ExtTreeSet.mem_ofList, List.contains_iff_mem,
      mem_volatileParams]
    constructor
    · intro hnot
      by_contra hmay
      exact hnot ⟨y, hxy, Bool.not_eq_true _ ▸ hmay⟩
    · rintro hmay ⟨y', hxy', hnot⟩
      rw [snd_eq_of_mem_zip hnodup hxy hxy', hnot] at hmay
      cases hmay
  have hsame : (d.onEntry a call f).notGlobal = d.notGlobal ∧
      (d.onEntry a call f).meets (a.sites x) = d.meets (a.sites x) := by
    rw [onEntry, if_pos hcall]
    exact ⟨rfl, rfl⟩
  rw [Bool.eq_iff_iff, mayPoint_iff, hvolatile, hsame.1, hsame.2]
  refine ⟨fun h => h.1, fun h => ⟨h, hlocal, ?_⟩⟩
  exact meets_sites_of_subset hsub (mayPoint_iff.mp h).2.2

@[simp]
theorem allocs_onEntry {d : Facts} {f : FunctionId} : (d.onEntry a call f).allocs = d.allocs := by
  rw [onEntry]
  split <;> rfl

/-! ## Returning -/

/-- What is known of the result of a call, where it may point to whatever the returned
value may. -/
theorem mayPoint_onReturn {d c : Facts} {ret : ValueId} (hlocal : call ∉ c.notGlobal)
    (hlocal' : call ∉ d.notGlobal) (hret : a.module.operation? ret = some (.ret (some y))) :
    (d.onReturn a c ret call).mayPoint a call = (d.mayPoint a y && c.meets (a.sites call)) := by
  have hglobal : call ∉ (d.onReturn a c ret call).notGlobal := by
    rw [onReturn, Std.ExtTreeSet.mem_insertMany_list, List.contains_iff_mem,
      Std.ExtTreeSet.mem_toList]
    exact fun h => h.elim hlocal hlocal'
  have hknown : call ∉ (d.onReturn a c ret call).notLocal ↔ d.mayPoint a y = true := by
    rw [onReturn, hret]
    cases hmay : d.mayPoint a y with
    | true => simp [put, hmay]
    | false => simp [put, hmay]
  rw [Bool.eq_iff_iff, mayPoint_iff, hknown, Bool.and_eq_true]
  exact ⟨fun h => ⟨h.1, h.2.2⟩, fun h => ⟨h.1, hglobal, h.2⟩⟩

/-! ## Learning -/

/-- The facts after learning about some values, one after the other. -/
def updates (m : Module) (d : Facts) (learned : List (ValueId × Bool)) : Facts :=
  learned.foldl (fun d e => d.update m e.1 e.2) d

/-- No call is learned to allocate persistent memory but those that are known to. -/
def Foreseen (m : Module) (allocs : Objects) (learned : List (ValueId × Bool)) : Prop :=
  ∀ v, (v, true) ∈ learned → m.isCall v = true → v ∈ allocs

theorem mem_allocs_update {m : Module} {d : Facts} {isNvm : Bool}
    (ho : y ∈ (d.update m v isNvm).allocs) :
    y ∈ d.allocs ∨ y = v ∧ isNvm = true ∧ m.isCall v = true := by
  rw [update] at ho
  dsimp only at ho
  split at ho
  · next hcall =>
    cases isNvm with
    | false => exact .inl (Std.ExtTreeSet.mem_of_mem_erase ho)
    | true =>
      rcases Std.ExtTreeSet.mem_insert.mp ho with heq | ho
      · exact .inr ⟨(Std.LawfulEqCmp.compare_eq_iff_eq.mp heq).symm, rfl, hcall⟩
      · exact .inl ho
  · exact .inl ho

/-- A call that makes an object may point to persistent memory once that is learned. -/
theorem mayPoint_update {d : Facts} (hcall : a.module.isCall v = true) (hv : v ∈ a.sites v)
    (hglobal : v ∉ d.notGlobal) : (d.update a.module v true).mayPoint a v = true := by
  have hlocal := isGlobal_of_isCall hcall
  refine mayPoint_iff.mpr ⟨?_, ?_, meets_iff.mpr ⟨v, hv, ?_⟩⟩
  · simp [update, hlocal, put]
  · simpa [update, hlocal] using hglobal
  · simp [update, hcall, put]

/-- What is foreseen adds no sites. -/
theorem allocs_updates_subset {m : Module} {d : Facts} {allocs : Objects}
    {learned : List (ValueId × Bool)} (hd : ∀ o, o ∈ d.allocs → o ∈ allocs)
    (h : Foreseen m allocs learned) : ∀ o, o ∈ (d.updates m learned).allocs → o ∈ allocs := by
  induction learned generalizing d with
  | nil => exact hd
  | cons e learned ih =>
    refine ih (fun o ho => ?_) fun v hv => h v (List.mem_cons_of_mem _ hv)
    rcases mem_allocs_update ho with ho | ⟨rfl, hnvm, hcall⟩
    · exact hd o ho
    · exact h _ (List.mem_cons.mpr (.inl (Prod.ext rfl hnvm.symm))) hcall

end Facts

namespace Session

/-- The activation learns about some values, one after the other. -/
def updates (d : Descriptor) (learned : List (ValueId × Bool)) : SessionM a Descriptor :=
  learned.foldlM (fun d e => update d e.1 e.2) d

theorem updates_quiet {learned : List (ValueId × Bool)} :
    Quiet (a := a) (updates d learned) (·.value = d.value.updates a.module learned) := by
  induction learned generalizing d with
  | nil => exact .pure rfl
  | cons e learned ih =>
    rw [updates, List.foldlM_cons]
    refine update_quiet.bind fun d' hd' => ?_
    rw [Facts.updates, List.foldl_cons, ← hd']
    exact ih

end Session

theorem Reached.updates {learned : List (ValueId × Bool)} (h : Reached a d) (s : Session a) :
    Reached a (Session.updates d learned s).1 := by
  induction learned generalizing d s with
  | nil => exact h
  | cons e learned ih =>
    rw [Session.updates, List.foldlM_cons]
    exact ih (.update s e.1 e.2 h) _

/-! ## In built modules -/

section Built

variable {l : Listing} {m : Module} {share : Bool} {f : FunctionId} {fn : Function}

theorem isCall_of_calls (hm : m.Linked) (h : (Solution.unlimited m share).Calls m call f) :
    m.isCall call = true := by
  rcases h with h | h
  · exact Module.isCall_of_calledFunction? h
  · obtain ⟨p, args, fn, hop, -⟩ := Solution.address_mem_of_indirectTargets hm h
    rw [Module.isCall, hop]
    rfl

/-- Values that are no globals are not known as volatile globals. -/
theorem Reached.notMem_notGlobal (h : Reached a d) (hv : a.module.isGlobal v = false) :
    v ∉ d.value.notGlobal := fun hmem => by
  rw [h.isGlobal hmem] at hv
  cases hv

/-- Entering a call passes on what is known: a parameter may point to persistent memory
in the callee if and only if its argument may in the caller. -/
theorem Session.mayPoint_doCall (hl : l.build = .ok m) (hd : Reached (.solved m share) d)
    (hcall : (Solution.unlimited m share).Calls m call f) (hdef : m.isDefined f = true)
    (hf : m.function? f = some fn) {i : Nat} (hx : fn.params[i]? = some x)
    (hy : (m.callArgs call)[i]? = some y) (s s' s'' : Session (.solved m share)) :
    (mayPoint (doCall d call f s).1.value x s').1 = (mayPoint d.value y s'').1 := by
  have hm := Listing.build_built hl
  have hmem := List.mem_of_getElem? hx
  have hxy : (x, y) ∈ fn.params.zip (m.callArgs call) :=
    List.mem_of_getElem? (List.getElem?_zip_eq_some.mpr ⟨hx, hy⟩)
  rw [mayPoint_quiet.answer, mayPoint_quiet.answer, (doCall_quiet s).2]
  exact Facts.mayPoint_onEntry (isCall_of_calls hm.linked hcall) hf
    (hm.listed.params_nodup f fn hf)
    (hd.notMem_notGlobal (isGlobal_of_param hm.listed hf hmem)) hxy
    fun _ => Solution.pointsTo_param hm.linked hcall hdef hf hxy

/-- A function that allocates on behalf of its caller, and a call of it. -/
def allocatorWrapper : Listing where
  name := "m"
  items := [.global "g", .declare "malloc" [] false, .declare "wrap" ["x"] false,
    .declare "main" [] false,
    .define ⟨1⟩ [.instruction "q" (.call (.direct ⟨0⟩) []), .ret (some ⟨5⟩)],
    .define ⟨2⟩ [.instruction "k" (.call (.direct ⟨1⟩) [⟨0⟩]), .ret none]]

/-- The facts at first when the global is persistent, or nothing is. -/
def wrapperStart (m : Module) (sites : List ValueId) : Descriptor :=
  ⟨0, .initial m ["mmap", "mmap64"] sites⟩

/-- The parameter may point to persistent memory when the global is passed for it. -/
theorem Session.mayPoint_doCall_wrapper : ∃ m, allocatorWrapper.build = .ok m ∧
    ∀ share (s s' s'' : Session (.solved m share)),
      (mayPoint (doCall (wrapperStart m [⟨0⟩]) ⟨7⟩ ⟨1⟩ s).1.value ⟨3⟩ s').1 =
        (mayPoint (wrapperStart m [⟨0⟩]).value ⟨0⟩ s'').1 := by
  obtain ⟨m, hl, hcall, hdef, hargs, hparams⟩ := Listing.exists_build (l := allocatorWrapper)
    (p := fun m => m.calledFunction? ⟨7⟩ = some ⟨1⟩ ∧ m.isDefined ⟨1⟩ ∧
      m.callArgs ⟨7⟩ = [⟨0⟩] ∧ ((m.function? ⟨1⟩).map (·.params)) = some [⟨3⟩])
    (by decide +kernel)
  obtain ⟨fn, hf, hfn⟩ := Option.map_eq_some_iff.mp hparams
  refine ⟨m, hl, fun share s s' s'' => ?_⟩
  exact mayPoint_doCall hl (.initial 0 _ _) (.inl hcall) hdef hf (i := 0) (by rw [hfn]; rfl)
    (by rw [hargs]; rfl) s s' s''

/-- Returning passes on what is known of the returned value, as far as the caller knows
of a persistent site of the result.  It does if the callee learned of no new site. -/
theorem Session.mayPoint_doReturn (hl : l.build = .ok m) (hc : Reached (.solved m share) c)
    (hcall : m.calledFunction? call = some f) (hdef : m.isDefined f = true)
    {learned : List (ValueId × Bool)} {ret : ValueId} (hmem : ret ∈ m.instructionsOf f)
    (hret : m.operation? ret = some (.ret (some y)))
    (s s₁ s₂ s₃ s₄ : Session (.solved m share))
    (hd : d = (updates (doCall c call f s).1 learned s₁).1) :
    (mayPoint (doReturn d c ret call s₂).1.value call s₃).1 =
        ((mayPoint d.value y s₄).1 && c.value.meets (Analysis.sites (.solved m share) call)) ∧
      (Facts.Foreseen m c.value.allocs learned →
        (mayPoint (doReturn d c ret call s₂).1.value call s₃).1 = (mayPoint d.value y s₄).1) := by
  have hm := Listing.build_built hl
  have hcalls : (Solution.unlimited m share).Calls m call f := .inl hcall
  have hiscall := isCall_of_calls hm.linked hcalls
  have hlocal := isGlobal_of_isCall hiscall
  have hreached : Reached (.solved m share) d := hd ▸ (hc.doCall s call f).updates s₁
  rw [mayPoint_quiet.answer, mayPoint_quiet.answer, (doReturn_quiet s₂).2]
  have hresult := Facts.mayPoint_onReturn (a := .solved m share) (d := d.value)
    (hc.notMem_notGlobal hlocal) (hreached.notMem_notGlobal hlocal) hret
  refine ⟨hresult, fun hforeseen => hresult.trans ?_⟩
  -- The sites that make the returned value persistent are known to the caller.
  have hallocs : ∀ o, o ∈ d.value.allocs → o ∈ c.value.allocs := by
    rw [hd, (updates_quiet s₁).2, (doCall_quiet s).2]
    exact Facts.allocs_updates_subset (fun o ho => Facts.allocs_onEntry ▸ ho) hforeseen
  cases hmay : d.value.mayPoint (.solved m share) y with
  | false => rfl
  | true =>
    rw [Bool.true_and]
    obtain ⟨o, ho, halloc⟩ := Facts.meets_iff.mp (Facts.mayPoint_iff.mp hmay).2.2
    obtain ⟨ho, hsite⟩ := Facts.mem_sites.mp ho
    refine Facts.meets_iff.mpr ⟨o, Facts.mem_sites.mpr ⟨?_, hsite⟩, hallocs o halloc⟩
    have hreturned : y ∈ PointsTo.returnedValues m f :=
      PointsTo.mem_returnedValues.mpr ⟨ret, hmem, hret⟩
    obtain ⟨i, name, hv⟩ := value?_of_isCall hiscall
    exact Solution.pointsTo_call hm.linked hcalls hdef (Module.value?_of_lt hv) hreturned ho

/-- What is known of the memory passes through the wrapper when it is no news. -/
theorem Session.mayPoint_doReturn_foreseen : ∃ m, allocatorWrapper.build = .ok m ∧
    ∀ share (s s₁ s₂ s₃ s₄ : Session (.solved m share)),
      let c := wrapperStart m [⟨5⟩]
      let d := (updates (doCall c ⟨7⟩ ⟨1⟩ s).1 [(⟨5⟩, true)] s₁).1
      (mayPoint (doReturn d c ⟨6⟩ ⟨7⟩ s₂).1.value ⟨7⟩ s₃).1 = (mayPoint d.value ⟨5⟩ s₄).1 := by
  obtain ⟨m, hl, hcall, hdef, hmem, hret⟩ := Listing.exists_build (l := allocatorWrapper)
    (p := fun m => m.calledFunction? ⟨7⟩ = some ⟨1⟩ ∧ m.isDefined ⟨1⟩ ∧
      ⟨6⟩ ∈ m.instructionsOf ⟨1⟩ ∧ m.operation? ⟨6⟩ = some (.ret (some ⟨5⟩)))
    (by decide +kernel)
  refine ⟨m, hl, fun share s s₁ s₂ s₃ s₄ => ?_⟩
  refine (mayPoint_doReturn hl (.initial 0 _ _) hcall hdef hmem hret s s₁ s₂ s₃ s₄ rfl).2 ?_
  intro v hv _
  cases List.mem_singleton.mp hv
  simp [Facts.initial]

/-- A site that the wrapper learns of stays with it: the returned value may point to
persistent memory, and the result of the call may not. -/
theorem Session.mayPoint_doReturn_wrapper : ∃ m, allocatorWrapper.build = .ok m ∧
    ∀ share (s s₁ s₂ s₃ s₄ : Session (.solved m share)),
      let c := wrapperStart m []
      let d := (updates (doCall c ⟨7⟩ ⟨1⟩ s).1 [(⟨5⟩, true)] s₁).1
      (mayPoint (doReturn d c ⟨6⟩ ⟨7⟩ s₂).1.value ⟨7⟩ s₃).1 = false ∧
        (mayPoint d.value ⟨5⟩ s₄).1 = true := by
  obtain ⟨m, hl, hq, hsite, hlt, halloc, hnone⟩ := Listing.exists_build (l := allocatorWrapper)
    (p := fun m => m.isCall ⟨5⟩ ∧ m.isAllocationSite ⟨5⟩ ∧ 5 < m.valueCount ∧
      .alloc ⟨5⟩ ⟨5⟩ ∈ (PointsTo.ConstraintSet.ofModule m).constraints ∧
      Facts.callsOf m ["mmap", "mmap64"] = [])
    (by decide +kernel)
  refine ⟨m, hl, fun share s s₁ s₂ s₃ s₄ => ?_⟩
  have hstart : Reached (.solved m share) (wrapperStart m []) := .initial 0 _ _
  have hglobal := (hstart.doCall s ⟨7⟩ ⟨1⟩).notMem_notGlobal (isGlobal_of_isCall hq)
  rw [(doCall_quiet s).2] at hglobal
  dsimp only
  rw [mayPoint_quiet.answer, mayPoint_quiet.answer, (doReturn_quiet s₂).2, (updates_quiet s₁).2,
    (doCall_quiet s).2]
  have hself : ⟨5⟩ ∈ Analysis.sites (.solved m share) ⟨5⟩ :=
    Facts.mem_sites.mpr ⟨Solution.mem_pointsTo_of_alloc (Listing.build_built hl).linked hlt halloc,
      hsite⟩
  constructor
  · refine Facts.mayPoint_of_allocs_eq_empty ?_
    rw [Facts.onReturn, wrapperStart, Facts.initial, hnone]
    rfl
  · exact Facts.mayPoint_update hq hself hglobal

end Built

end PmemPaths.Nvm
