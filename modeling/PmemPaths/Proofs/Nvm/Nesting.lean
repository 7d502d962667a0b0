import Mathlib.Data.Finset.Card
import Mathlib.Data.List.Sublists
import PmemPaths.Nvm.Activation
import PmemPaths.Proofs.Ir.ControlFlow
import PmemPaths.Proofs.Nvm.Answers

/-!
# Nested constructions

Making the context of a function nests, since each direct call of a defined function asks
for a context of the callee.  How a context comes about does not depend on the bound on
the nesting (`Session.Performs`), because that bound is never met
(`Session.construct_performs`).  So what is true of all contexts a session makes is shown
by induction on how they come about.

The facts of all nested contexts differ from the facts at the outset in the volatile
parameters only, so there are finitely many pairs of a function and facts that can come
up (`nestedKeys`).  Each nested construction marks one that was not marked, and the levels
that are allowed are more than there are pairs (`pending_lt_nestingBound`).
-/

namespace PmemPaths.Nvm

open PmemPaths.Ir

variable {a : Analysis} {β : Type}

/-- A context without children or priorities, as the facts ask for. -/
def Context.bare (a : Analysis) (f : FunctionId) (state : Descriptor) (returnHasWeight : Bool)
    (id : Nat) : Context :=
  let weights := (a.module.instructionsOf f).map fun v =>
    (v, state.value.coreWeight a returnHasWeight v)
  let core := weights.filter (0 < ·.2)
  { id
    function := f
    state
    returnHasWeight
    coreWeights := .ofList core
    weights := .ofList weights
    priorities := ∅
    children := []
    hasCoreWeight := !core.isEmpty }

namespace Session

/-! ## How contexts are made -/

/-- What is made on the way to a context. -/
inductive Task where
  /-- The context of a function under given facts. -/
  | context (f : FunctionId) (state : Descriptor) (returnHasWeight : Bool)
  /-- The children of a context, for each of these calls. -/
  | children (c : Context) (calls : List ValueId)

/-- The session makes a context, whatever the bound on the nesting: it is found, or built
with a child for each direct call of a defined function that is not under construction. -/
inductive Performs : Task → Session a → Context → Session a → Prop
  | found {f : FunctionId} {state entry : Descriptor} {r : Bool} {c : Context}
      {s s₁ s₂ : Session a} :
      intern state s = (entry, s₁) → lookup ⟨f, entry.value⟩ s₁ = (some c, s₂) →
      Performs (.context f state r) s c s₂
  | built {f : FunctionId} {state entry : Descriptor} {r : Bool} {bare grown c : Context}
      {s s₁ s₂ s₃ s₄ s₅ s₆ s₇ : Session a} :
      intern state s = (entry, s₁) → lookup ⟨f, entry.value⟩ s₁ = (none, s₂) →
      begin ⟨f, entry.value⟩ s₂ = (true, s₃) → bareContext f entry r s₃ = (bare, s₄) →
      Performs (.children bare (a.module.instructionsOf f)) s₄ grown s₅ →
      finish ⟨f, entry.value⟩ s₅ = ((), s₆) → insert (prioritize (a := a) grown) s₆ = (c, s₇) →
      Performs (.context f state r) s c s₇
  | none {c : Context} {s : Session a} : Performs (.children c []) s c s
  | skip {c c' : Context} {call : ValueId} {calls : List ValueId} {s s' : Session a} :
      (a.module.calledFunction? call).filter a.module.isDefined = none →
      Performs (.children c calls) s c' s' → Performs (.children c (call :: calls)) s c' s'
  /-- A callee under construction becomes no child. -/
  | recursive {c c' : Context} {call : ValueId} {calls : List ValueId} {callee : FunctionId}
      {d state : Descriptor} {s s₁ s₂ s' : Session a} :
      (a.module.calledFunction? call).filter a.module.isDefined = some callee →
      doCall c.state call callee s = (d, s₁) → intern d s₁ = (state, s₂) →
      s₂.inProgress.contains ⟨callee, state.value⟩ = true →
      Performs (.children c calls) s₂ c' s' → Performs (.children c (call :: calls)) s c' s'
  | child {c child c' : Context} {call : ValueId} {calls : List ValueId} {callee : FunctionId}
      {d state : Descriptor} {r : Bool} {s s₁ s₂ s₃ s₄ s' : Session a} :
      (a.module.calledFunction? call).filter a.module.isDefined = some callee →
      doCall c.state call callee s = (d, s₁) → intern d s₁ = (state, s₂) →
      s₂.inProgress.contains ⟨callee, state.value⟩ = false →
      mayPoint c.state.value call s₂ = (r, s₃) →
      Performs (.context callee state r) s₃ child s₄ →
      Performs (.children (addChild (a := a) c call child) calls) s₄ c' s' →
      Performs (.children c (call :: calls)) s c' s'

variable {s s' s'' : Session a} {f : FunctionId} {d entry state : Descriptor} {c c' : Context}
  {key : ContextKey} {n : Nat} {r : Bool} {t : Task}

theorem bind_run {γ : Type} (act : SessionM a β) (next : β → SessionM a γ) (s : Session a) :
    (act >>= next) s = next (act s).1 (act s).2 := rfl

/-! ## What operations leave behind -/

/-- What is interned and what is filed stays as it is. -/
structure Aside (s s' : Session a) : Prop where
  contexts : s'.contexts = s.contexts
  interned : s'.interned = s.interned
  nextId_le : s.nextId ≤ s'.nextId

theorem Aside.trans (h : Aside s s') (h' : Aside s' s'') : Aside s s'' :=
  ⟨h'.contexts.trans h.contexts, h'.interned.trans h.interned, h.nextId_le.trans h'.nextId_le⟩

section Quiet

variable {P : β → Prop} {act : SessionM a β} {b : β}

theorem Quiet.run (h : Quiet act P) (hrun : act s = (b, s')) :
    (∃ memo n, s.nextId ≤ n ∧ s' = { s with memo, nextId := n }) ∧ P b := by
  have hs := h s
  rw [hrun] at hs
  exact hs

theorem Quiet.aside (h : Quiet act P) (hrun : act s = (b, s')) : Aside s s' := by
  obtain ⟨⟨memo, n, hn, rfl⟩, -⟩ := h.run hrun
  exact ⟨rfl, rfl, hn⟩

theorem Quiet.inProgress (h : Quiet act P) (hrun : act s = (b, s')) :
    s'.inProgress = s.inProgress := by
  obtain ⟨⟨memo, n, -, rfl⟩, -⟩ := h.run hrun
  rfl

theorem mapM_quiet {act : ValueId → SessionM a β} {g : ValueId → β}
    (h : ∀ v, Quiet (act v) (· = g v)) (vs : List ValueId) :
    Quiet (vs.mapM act) (· = vs.map g) := by
  induction vs with
  | nil => exact .pure rfl
  | cons v vs ih =>
    rw [List.mapM_cons]
    refine (h v).bind fun b hb => ih.bind fun bs hbs => .pure ?_
    rw [hb, hbs, List.map_cons]

/-- The instructions are weighed one after the other. -/
theorem weights_quiet (d : Facts) (r : Bool) (vs : List ValueId) :
    Quiet (a := a) (vs.mapM fun v => do return (v, ← coreWeight d r v))
      (· = vs.map fun v => (v, d.coreWeight a r v)) :=
  mapM_quiet (fun v => coreWeight_quiet.bind fun b hb => .pure (by rw [hb])) vs

end Quiet

/-- A bare context has a new identity. -/
theorem bareContext_cases (h : bareContext f state r s = (c, s')) :
    c = .bare a f state r c.id ∧ s.nextId ≤ c.id ∧
      ∃ memo, s' = { s with memo, nextId := c.id + 1 } := by
  obtain ⟨⟨memo, n, hn, hafter⟩, hweights⟩ := weights_quiet (a := a) state.value r
    (a.module.instructionsOf f) s
  rw [bareContext, bind_run, hafter, hweights] at h
  cases h
  exact ⟨rfl, hn, memo, rfl⟩

theorem intern_run (d : Descriptor) (s : Session a) : intern d s =
    match s.interned[d.value]? with
    | some known => (known, s)
    | none => (d, { s with interned := s.interned.insert d.value d }) := rfl

/-- Interning finds facts that are equal, or keeps the given ones. -/
theorem intern_cases (h : intern d s = (entry, s')) :
    s.interned[d.value]? = some entry ∧ s' = s ∨
      s.interned[d.value]? = none ∧ entry = d ∧
        s' = { s with interned := s.interned.insert d.value d } := by
  rw [intern_run] at h
  cases hd : s.interned[d.value]? with
  | some known =>
    rw [hd] at h
    cases h
    exact .inl ⟨rfl, rfl⟩
  | none =>
    rw [hd] at h
    cases h
    exact .inr ⟨rfl, rfl, rfl⟩

theorem lookup_run (key : ContextKey) (s : Session a) : lookup key s =
    match s.contexts[key]? with
    | some c => (some c, { s with hits := s.hits + 1 })
    | none => (none, { s with misses := s.misses + 1 }) := rfl

/-- What is looked up is what is filed, and nothing changes but the counts. -/
theorem lookup_cases {found : Option Context} (h : lookup key s = (found, s')) :
    s.contexts[key]? = found ∧ ∃ hits misses, s' = { s with hits, misses } := by
  rw [lookup_run] at h
  cases hc : s.contexts[key]? with
  | some c =>
    rw [hc] at h
    cases h
    exact ⟨rfl, _, _, rfl⟩
  | none =>
    rw [hc] at h
    cases h
    exact ⟨rfl, _, _, rfl⟩

theorem begin_run (key : ContextKey) (s : Session a) : begin key s =
    (!s.inProgress.contains key, { s with inProgress := s.inProgress.insert key }) := rfl

theorem isInProgress_run (key : ContextKey) (s : Session a) :
    isInProgress key s = (s.inProgress.contains key, s) := rfl

theorem begin_cases (h : begin key s = (true, s')) : s.inProgress.contains key = false ∧
    s' = { s with inProgress := s.inProgress.insert key } := by
  rw [begin_run, Prod.mk.injEq] at h
  exact ⟨by simpa using h.1, h.2.symm⟩

theorem finish_cases (h : finish key s = ((), s')) :
    s' = { s with inProgress := s.inProgress.erase key } := (Prod.mk.inj h).2.symm

theorem insert_run (c : Context) (s : Session a) : insert c s =
    match s.contexts[(⟨c.function, c.state.value⟩ : ContextKey)]? with
    | some known => (known, s)
    | none => (c, { s with contexts := s.contexts.insert ⟨c.function, c.state.value⟩ c }) := rfl

/-- A context is filed, unless there is one under its key. -/
theorem insert_cases (h : insert c s = (c', s')) :
    s.contexts[(⟨c.function, c.state.value⟩ : ContextKey)]? = some c' ∧ s' = s ∨
      s.contexts[(⟨c.function, c.state.value⟩ : ContextKey)]? = none ∧ c' = c ∧
        s' = { s with contexts := s.contexts.insert ⟨c.function, c.state.value⟩ c } := by
  rw [insert_run] at h
  cases hc : s.contexts[(⟨c.function, c.state.value⟩ : ContextKey)]? with
  | some known =>
    rw [hc] at h
    cases h
    exact .inl ⟨rfl, rfl⟩
  | none =>
    rw [hc] at h
    cases h
    exact .inr ⟨rfl, rfl, rfl⟩

theorem lookup_aside {found : Option Context} (h : lookup key s = (found, s')) : Aside s s' := by
  obtain ⟨-, hits, misses, rfl⟩ := lookup_cases h
  exact ⟨rfl, rfl, Nat.le_refl _⟩

theorem finish_aside (h : finish key s = ((), s')) : Aside s s' := by
  rw [finish_cases h]
  exact ⟨rfl, rfl, Nat.le_refl _⟩

/-- A construction that starts leaves alone what is interned and filed. -/
theorem start_aside {s₁ s₂ : Session a} (hlookup : lookup key s = (none, s₁))
    (hbegin : begin key s₁ = (true, s₂)) (hbare : bareContext f state r s₂ = (c, s')) :
    Aside s s' := by
  refine (lookup_aside hlookup).trans ?_
  obtain ⟨-, rfl⟩ := begin_cases hbegin
  obtain ⟨-, hid, memo, rfl⟩ := bareContext_cases hbare
  exact ⟨rfl, rfl, Nat.le_succ_of_le hid⟩

theorem inProgress_intern (h : intern d s = (entry, s')) : s'.inProgress = s.inProgress := by
  rcases intern_cases h with ⟨-, rfl⟩ | ⟨-, -, rfl⟩ <;> rfl

theorem inProgress_lookup {found : Option Context} (h : lookup key s = (found, s')) :
    s'.inProgress = s.inProgress := by
  obtain ⟨-, hits, misses, rfl⟩ := lookup_cases h
  rfl

theorem inProgress_bareContext (h : bareContext f state r s = (c, s')) :
    s'.inProgress = s.inProgress := by
  obtain ⟨-, -, memo, rfl⟩ := bareContext_cases h
  rfl

theorem interned_insert (h : insert c s = (c', s')) : s'.interned = s.interned := by
  rcases insert_cases h with ⟨-, rfl⟩ | ⟨-, -, rfl⟩ <;> rfl

theorem inProgress_insert (h : insert c s = (c', s')) : s'.inProgress = s.inProgress := by
  rcases insert_cases h with ⟨-, rfl⟩ | ⟨-, -, rfl⟩ <;> rfl

/-- What is under construction in the end is what was at the outset. -/
theorem Performs.marks (h : Performs t s c s') (key : ContextKey) :
    s'.inProgress.contains key = s.inProgress.contains key := by
  induction h with
  | found hintern hlookup => rw [inProgress_lookup hlookup, inProgress_intern hintern]
  | @built f _ entry _ _ _ _ _ _ _ _ _ _ _ _ hintern hlookup hbegin hbare _ hfinish hinsert ih =>
    obtain ⟨hfree, rfl⟩ := begin_cases hbegin
    obtain rfl := finish_cases hfinish
    rw [inProgress_insert hinsert, Std.HashSet.contains_erase, ih,
      inProgress_bareContext hbare, Std.HashSet.contains_insert]
    rw [inProgress_lookup hlookup, inProgress_intern hintern] at hfree ⊢
    by_cases hkey : (⟨f, entry.value⟩ : ContextKey) = key
    · rw [← hkey, hfree, beq_self_eq_true]
      rfl
    · rw [beq_eq_false_iff_ne.mpr hkey]
      rfl
  | none => rfl
  | skip _ _ ih => exact ih
  | recursive _ hcall hintern _ _ ih =>
    rw [ih, inProgress_intern hintern, doCall_quiet.inProgress hcall]
  | child _ hcall hintern _ hmay _ _ ihchild ih =>
    rw [ih, ihchild, mayPoint_quiet.inProgress hmay, inProgress_intern hintern,
      doCall_quiet.inProgress hcall]

/-! ## What is interned -/

/-- What is interned under some facts are these facts. -/
def Interns (s : Session a) : Prop :=
  ∀ (facts : Facts) (d : Descriptor), s.interned[facts]? = some d → d.value = facts

theorem Interns.value_eq (hs : s.Interns) (h : intern d s = (entry, s')) :
    entry.value = d.value := by
  rcases intern_cases h with ⟨hd, -⟩ | ⟨-, rfl, -⟩
  · exact hs _ _ hd
  · rfl

theorem Interns.intern (hs : s.Interns) (h : intern d s = (entry, s')) : s'.Interns := by
  rcases intern_cases h with ⟨-, rfl⟩ | ⟨-, -, rfl⟩
  · exact hs
  · intro facts e he
    rw [Std.HashMap.getElem?_insert] at he
    split at he
    · next hkey =>
      cases he
      exact beq_iff_eq.mp hkey
    · exact hs _ _ he

theorem Interns.of_eq (hs : s.Interns) (h : s'.interned = s.interned) : s'.Interns :=
  fun facts d hd => hs facts d (h ▸ hd)

theorem Interns.aside (hs : s.Interns) (h : Aside s s') : s'.Interns := hs.of_eq h.interned

theorem Performs.interns (h : Performs t s c s') (hs : s.Interns) : s'.Interns := by
  induction h with
  | found hintern hlookup => exact (hs.intern hintern).aside (lookup_aside hlookup)
  | built hintern hlookup hbegin hbare _ hfinish hinsert ih =>
    have hgrown := ih ((hs.intern hintern).aside (start_aside hlookup hbegin hbare))
    exact (hgrown.aside (finish_aside hfinish)).of_eq (interned_insert hinsert)
  | none => exact hs
  | skip _ _ ih => exact ih hs
  | recursive _ hcall hintern _ _ ih =>
    exact ih ((hs.aside (doCall_quiet.aside hcall)).intern hintern)
  | child _ hcall hintern _ hmay _ _ ihchild ih =>
    have hentry := (hs.aside (doCall_quiet.aside hcall)).intern hintern
    exact ih (ihchild (hentry.aside (mayPoint_quiet.aside hmay)))

/-! ## The pairs that nested constructions can come to -/

/-- The parameters of a function. -/
def paramsOf (m : Module) (f : FunctionId) : List ValueId := (m.function? f).elim [] (·.params)

/-- The pairs of a function and facts in which the facts are the given ones but for the
volatile parameters. -/
def nestedKeys (m : Module) (d : Facts) : List ContextKey :=
  m.functionIds.flatMap fun f =>
    (paramsOf m f).sublists.map fun volatile => ⟨f, { d with notLocal := .ofList volatile }⟩

theorem functionIds_map_function? (m : Module) :
    m.functionIds.map m.function? = m.functions.toList.map some := by
  refine List.ext_getElem ?_ fun i hi hj => ?_
  · simp [Module.functionIds]
  · simp [Module.functionIds, Module.function?]

/-- The levels allowed are more than there are pairs. -/
theorem length_nestedKeys (m : Module) (d : Facts) :
    (nestedKeys m d).length + 2 = nestingBound m := by
  have hlengths : m.functionIds.map (fun f => 2 ^ (paramsOf m f).length) =
      m.functions.toList.map fun fn => 2 ^ fn.params.length := by
    have h := congrArg (List.map fun fn? : Option Function => 2 ^ (fn?.elim [] (·.params)).length)
      (functionIds_map_function? m)
    rwa [List.map_map, List.map_map] at h
  rw [nestedKeys, List.length_flatMap, nestingBound, List.foldl_eq_apply_foldr, Nat.add_comm]
  simp only [List.length_map, List.length_sublists, hlengths]
  rfl

theorem map_fst_zip_sublist (xs ys : List ValueId) : ((xs.zip ys).map (·.1)).Sublist xs := by
  rw [List.zip_eq_zip_take_min, List.map_fst_zip (by simp)]
  exact List.take_sublist _ _

/-- A call comes to one of the pairs, with facts that lead to the same pairs. -/
theorem onEntry_mem_nestedKeys (d : Facts) {call : ValueId} {f : FunctionId}
    (hcall : a.module.isCall call = true) (hdef : a.module.isDefined f = true) :
    (⟨f, d.onEntry a call f⟩ : ContextKey) ∈ nestedKeys a.module d ∧
      nestedKeys a.module (d.onEntry a call f) = nestedKeys a.module d := by
  rw [Facts.onEntry, if_pos hcall]
  refine ⟨List.mem_flatMap.mpr ⟨f, ?_, List.mem_map.mpr ⟨_, List.mem_sublists.mpr ?_, rfl⟩⟩, rfl⟩
  · exact (List.mem_filter.mp (Module.mem_definedFunctions.mpr hdef)).1
  · exact (List.filter_sublist.map _).trans (map_fst_zip_sublist _ _)

/-- How many of the pairs are not under construction. -/
def pending (m : Module) (d : Facts) (s : Session a) : Nat :=
  ((nestedKeys m d).toFinset.filter fun key => s.inProgress.contains key = false).card

theorem pending_lt_nestingBound (m : Module) (d : Facts) (s : Session a) :
    pending m d s + 1 < nestingBound m := by
  have hcard : pending m d s ≤ (nestedKeys m d).length :=
    (Finset.card_filter_le _ _).trans (List.toFinset_card_le _)
  rw [← length_nestedKeys m d]
  omega

theorem pending_eq {m : Module} {d d' : Facts} (hkeys : nestedKeys m d' = nestedKeys m d)
    (hmarks : ∀ key, s'.inProgress.contains key = s.inProgress.contains key) :
    pending m d' s' = pending m d s := by
  rw [pending, pending, hkeys]
  simp only [hmarks]

/-- A mark makes the pairs that are not under construction fewer. -/
theorem pending_insert_lt {m : Module} {d : Facts} {key : ContextKey} (hkey : key ∈ nestedKeys m d)
    (hfree : s.inProgress.contains key = false) :
    pending m d { s with inProgress := s.inProgress.insert key } < pending m d s := by
  refine Finset.card_lt_card (Finset.ssubset_iff_of_subset ?_ |>.mpr ⟨key, ?_, ?_⟩)
  · intro k hk
    rw [Finset.mem_filter] at hk ⊢
    rw [Std.HashSet.contains_insert, Bool.or_eq_false_iff] at hk
    exact ⟨hk.1, hk.2.2⟩
  · exact Finset.mem_filter.mpr ⟨List.mem_toFinset.mpr hkey, hfree⟩
  · intro hmem
    have h := (Finset.mem_filter.mp hmem).2
    rw [Std.HashSet.contains_insert, beq_self_eq_true] at h
    cases h

theorem pending_insert_le {m : Module} {d : Facts} {key : ContextKey} :
    pending m d { s with inProgress := s.inProgress.insert key } ≤ pending m d s := by
  refine Finset.card_le_card fun k hk => ?_
  rw [Finset.mem_filter] at hk ⊢
  rw [Std.HashSet.contains_insert, Bool.or_eq_false_iff] at hk
  exact ⟨hk.1, hk.2.2⟩

/-! ## The bound on the nesting -/

/-- Asked for one of the pairs that are not under construction, while no more than so many
are not, the operation makes a context for it. -/
def Builds (n : Nat) (make : FunctionId → Descriptor → Bool → SessionM a Context) : Prop :=
  ∀ (s : Session a) f d r, s.Interns → ⟨f, d.value⟩ ∈ nestedKeys a.module d.value →
    pending a.module d.value s ≤ n → s.inProgress.contains ⟨f, d.value⟩ = false →
    Performs (.context f d r) s (make f d r s).1 (make f d r s).2

/-- The calls get their children one after the other. -/
theorem addChildren_performs {make : FunctionId → Descriptor → Bool → SessionM a Context}
    (hmake : Builds n make) {calls : List ValueId} (hs : s.Interns)
    (hpending : pending a.module c.state.value s ≤ n) :
    Performs (.children c calls) s (addChildren make c calls s).1
      (addChildren make c calls s).2 := by
  induction calls generalizing c s with
  | nil => exact .none
  | cons call calls ih =>
    rw [addChildren]
    simp only [pure_bind]
    cases hcallee : (a.module.calledFunction? call).filter a.module.isDefined with
    | none => exact .skip hcallee (ih hs hpending)
    | some callee =>
      obtain ⟨hcalled, hdef⟩ := Option.filter_eq_some_iff.mp hcallee
      dsimp only
      rw [bind_run, bind_run, bind_run]
      generalize hcall : doCall c.state call callee s = run₁
      obtain ⟨d, s₁⟩ := run₁
      generalize hintern : intern d s₁ = run₂
      obtain ⟨state, s₂⟩ := run₂
      have hs₁ := hs.aside (doCall_quiet.aside hcall)
      have hmarks : s₂.inProgress = s.inProgress := by
        rw [inProgress_intern hintern, doCall_quiet.inProgress hcall]
      rw [isInProgress_run]
      dsimp only
      split
      · next hmarked =>
        refine .recursive hcallee hcall hintern hmarked (ih (hs₁.intern hintern) ?_)
        exact (pending_eq rfl fun key => by rw [hmarks]).le.trans hpending
      · next hfree =>
        -- The callee is not under construction, and one of the pairs.
        rw [Bool.not_eq_true] at hfree
        obtain ⟨hkey, hkeys⟩ := onEntry_mem_nestedKeys c.state.value
          (Module.isCall_of_calledFunction? hcalled) hdef
        have hvalue : state.value = c.state.value.onEntry a call callee :=
          (hs₁.value_eq hintern).trans (doCall_quiet.run hcall).2
        rw [bind_run, bind_run]
        generalize hmay : mayPoint c.state.value call s₂ = run₃
        obtain ⟨r, s₃⟩ := run₃
        have hmarks' : s₃.inProgress = s.inProgress := by
          rw [mayPoint_quiet.inProgress hmay, hmarks]
        have hs₃ := (hs₁.intern hintern).aside (mayPoint_quiet.aside hmay)
        have hchild := hmake s₃ callee state r hs₃ (hvalue ▸ hkeys ▸ hkey)
          (hvalue ▸ (pending_eq hkeys fun key => by rw [hmarks']).le.trans hpending)
          (mayPoint_quiet.inProgress hmay ▸ hfree)
        refine .child hcallee hcall hintern hfree hmay hchild (ih (hchild.interns hs₃) ?_)
        exact (pending_eq rfl fun key => by rw [hchild.marks, hmarks']).le.trans hpending

/-- One level of construction, when the nested ones come out. -/
theorem constructWithin_succ_performs (hmake : Builds (a := a) n (constructWithin n))
    (hs : s.Interns) (hfree : s.inProgress.contains ⟨f, state.value⟩ = false)
    (hpending : pending a.module state.value
      { s with inProgress := s.inProgress.insert ⟨f, state.value⟩ } ≤ n) (r : Bool) :
    Performs (.context f state r) s (constructWithin (n + 1) f state r s).1
      (constructWithin (n + 1) f state r s).2 := by
  rw [constructWithin, bind_run]
  generalize hintern : intern state s = run₁
  obtain ⟨entry, s₁⟩ := run₁
  dsimp only
  rw [bind_run]
  generalize hlookup : lookup ⟨f, entry.value⟩ s₁ = run₂
  obtain ⟨found, s₂⟩ := run₂
  cases found with
  | some c => exact .found hintern hlookup
  | none =>
    have hvalue := hs.value_eq hintern
    have hmarks : s₂.inProgress = s.inProgress := by
      rw [inProgress_lookup hlookup, inProgress_intern hintern]
    have hbegin : begin ⟨f, entry.value⟩ s₂ =
        (true, { s₂ with inProgress := s₂.inProgress.insert ⟨f, entry.value⟩ }) := by
      rw [begin_run, hmarks, hvalue, hfree]
      rfl
    dsimp only
    rw [bind_run, hbegin]
    dsimp only
    rw [bind_run]
    generalize hbare : bareContext f entry r
      { s₂ with inProgress := s₂.inProgress.insert ⟨f, entry.value⟩ } = run₃
    obtain ⟨bare, s₄⟩ := run₃
    obtain ⟨hbare', -⟩ := bareContext_cases hbare
    have hgrown : Performs (.children bare (a.module.instructionsOf f)) s₄ _ _ :=
      addChildren_performs hmake ((hs.intern hintern).aside (start_aside hlookup hbegin hbare)) (by
        rw [hbare']
        refine (pending_eq (d := state.value) ?_ fun key => ?_).le.trans hpending
        · rw [← hvalue]
          rfl
        · rw [inProgress_bareContext hbare, hmarks, hvalue])
    dsimp only
    rw [bind_run]
    generalize addChildren (constructWithin n) bare (a.module.instructionsOf f) s₄ = run₄
      at hgrown ⊢
    exact .built hintern hlookup hbegin hbare hgrown rfl rfl

/-- Where a level is left for each pair that is not under construction, all
constructions come out. -/
theorem constructWithin_builds (n : Nat) : Builds (a := a) n (constructWithin n) := by
  induction n with
  | zero =>
    -- The pair asked for is itself one that is not under construction.
    intro s f d r _ hkey hpending hfree
    exact absurd (pending_insert_lt hkey hfree) (by omega)
  | succ n ih =>
    intro s f d r hs hkey hpending hfree
    have hlt := pending_insert_lt hkey hfree
    exact constructWithin_succ_performs ih hs hfree (by omega) r

/-- Where the bound on the nesting is high enough, it is as if there were none. -/
theorem constructWithin_performs (hn : nestingBound a.module ≤ n) (hs : s.Interns)
    (hfree : s.inProgress.contains ⟨f, state.value⟩ = false) (r : Bool) :
    Performs (.context f state r) s (constructWithin n f state r s).1
      (constructWithin n f state r s).2 := by
  have hbound := pending_lt_nestingBound a.module state.value s
  obtain ⟨k, rfl⟩ : ∃ k, n = k + 1 := ⟨n - 1, by omega⟩
  refine constructWithin_succ_performs (constructWithin_builds _) hs hfree ?_ r
  exact pending_insert_le.trans (by omega)

/-- A construction makes its context as if there were no bound on the nesting. -/
theorem construct_performs (hs : s.Interns) (hfree : s.inProgress.contains ⟨f, state.value⟩ = false)
    (r : Bool) :
    Performs (.context f state r) s (construct f state r s).1 (construct f state r s).2 :=
  constructWithin_performs (Nat.le_refl _) hs hfree r

end Session

end PmemPaths.Nvm
