import PmemPaths.Proofs.Nvm.Consistency

/-!
# Construction of contexts

In a built module, constructing the context of a function under given facts gives a
consistent context of that function and those facts (`Session.construct_makes`).

This is shown by induction on how a context comes about (`Session.Performs`).  A context
that gets its children is not filed yet, and not all its calls have a child
(`Session.Growing`); what it has fits together all the same.
-/

namespace PmemPaths.Nvm

open PmemPaths.Ir

variable {a : Analysis}

/-! ## Contexts without children -/

namespace Context

/-- A table made from a list without repeats holds what the list holds. -/
theorem getElem?_ofList_map {vs : List ValueId} (hvs : vs.Nodup) (g : ValueId → Nat)
    (v : ValueId) : (Std.ExtTreeMap.ofList (vs.map fun v => (v, g v)) : Table)[v]? =
      if v ∈ vs then some (g v) else none := by
  split
  · next hv =>
    refine Std.ExtTreeMap.getElem?_ofList_of_mem Std.ReflCmp.compare_self ?_
      (List.mem_map.mpr ⟨v, hv, rfl⟩)
    rw [List.pairwise_map]
    exact hvs.imp fun hne heq => hne (Std.LawfulEqCmp.compare_eq_iff_eq.mp heq)
  · next hv =>
    refine Std.ExtTreeMap.getElem?_ofList_of_contains_eq_false ?_
    simpa using hv

theorem bare_weighed (hm : a.module.Built) (f : FunctionId) (state : Descriptor)
    (returnHasWeight : Bool) (id : Nat) : (bare a f state returnHasWeight id).Weighed a := by
  have hcore : ∀ v ∈ a.module.instructionsOf f, (bare a f state returnHasWeight id).coreWeight v =
      state.value.coreWeight a returnHasWeight v := by
    intro v hv
    have hlist : ∀ vs : List ValueId,
        (vs.map fun v => (v, state.value.coreWeight a returnHasWeight v)).filter (0 < ·.2) =
          (vs.filter fun v => 0 < state.value.coreWeight a returnHasWeight v).map fun v =>
            (v, state.value.coreWeight a returnHasWeight v) := fun vs => List.filter_map ..
    rw [coreWeight, bare, Std.ExtTreeMap.getD_eq_getD_getElem?, hlist]
    rw [getElem?_ofList_map ((hm.nodup_instructionsOf f).filter _)]
    split
    · rfl
    · next hnot =>
      have hzero : ¬0 < state.value.coreWeight a returnHasWeight v := fun hpos =>
        hnot (List.mem_filter.mpr ⟨hv, decide_eq_true hpos⟩)
      exact (Nat.eq_zero_of_not_pos hzero).symm
  refine ⟨hcore, fun v hv _ => ?_, fun v child hchild => ?_⟩
  · rw [hcore v hv]
    exact (getElem?_ofList_map (hm.nodup_instructionsOf f) _ v).trans (if_pos hv)
  · cases hchild

/-- Something weighs by itself if an instruction does. -/
theorem hasCoreWeight_bare (f : FunctionId) (d : Descriptor) (r : Bool) (id : Nat) :
    (bare a f d r id).hasCoreWeight =
      (a.module.instructionsOf f).any fun v => 0 < d.value.coreWeight a r v := by
  have hlist : ∀ vs : List ValueId,
      (!((vs.map fun v => (v, d.value.coreWeight a r v)).filter (0 < ·.2)).isEmpty) =
        vs.any fun v => 0 < d.value.coreWeight a r v := by
    intro vs
    induction vs with
    | nil => rfl
    | cons v vs ih =>
      rw [List.map_cons, List.filter_cons, List.any_cons, ← ih]
      split
      · next hpos => rw [hpos]; rfl
      · next hzero => rw [Bool.eq_false_iff.mpr hzero, Bool.false_or]
  exact hlist _

end Context

namespace Session

variable {K K' : Set Context} {s s' : Session a}

/-! ## Children for the direct calls -/

/-- A context that gets its children: what it has fits together, and some calls have no
child yet. -/
structure Growing (a : Analysis) (K : Set Context) (id : Nat) (f : FunctionId)
    (state : Descriptor) (c : Context) (calls : List ValueId) : Prop extends c.Weighed a where
  id_eq : c.id = id
  function_eq : c.function = f
  state_eq : c.state = state
  made : ∀ v child, c.child? v = some child → child ∈ K
  free : ∀ v ∈ calls, c.child? v = none

section Growing

variable {id : Nat} {f : FunctionId} {state : Descriptor} {c child : Context} {call : ValueId}
  {calls : List ValueId}

theorem Growing.mono (h : Growing a K id f state c calls) (hsub : K ⊆ K') :
    Growing a K' id f state c calls :=
  { h with made := fun v child hv => hsub (h.made v child hv) }

theorem Growing.skip (h : Growing a K id f state c (call :: calls)) :
    Growing a K id f state c calls :=
  { h with free := fun v hv => h.free v (List.mem_cons_of_mem _ hv) }

/-- A call that has no child yet gets one. -/
theorem Growing.addChild (h : Growing a K id f state c (call :: calls))
    (hcall : call ∈ a.module.instructionsOf f) (hnodup : call ∉ calls) (hchild : child ∈ K) :
    Growing a K id f state (addChild (a := a) c call child) calls := by
  have hplain := h.plain call (h.function_eq ▸ hcall) (h.free call List.mem_cons_self)
  have hweight : c.weights.getD call 0 = c.coreWeight call := by
    rw [Std.ExtTreeMap.getD_eq_getD_getElem?, hplain, Option.getD_some]
  rw [Session.addChild, hweight]
  refine ⟨h.toWeighed.setChild (n := c.id), h.id_eq, h.function_eq, h.state_eq, fun v w hw => ?_,
    fun v hv => ?_⟩
  · rw [Context.child?_of_children_eq rfl] at hw
    split at hw
    · cases hw
      exact hchild
    · exact h.made v w hw
  · have hne : v ≠ call := fun heq => hnodup (heq ▸ hv)
    rw [Context.child?_of_children_eq rfl, if_neg hne]
    exact h.free v (List.mem_cons_of_mem _ hv)

end Growing

/-! ## What constructions make -/

/-- The session goes on with the context that was made, or with the one that has got its
children. -/
def Task.Makes (K : Set Context) (s : Session a) (c : Context) (s' : Session a) : Task → Prop
  | .context f state _ => (a.module.function? f).isSome = true →
    ∃ K', Advance K s K' s' ∧ MadeFor K' f state.value c
  | .children c₀ calls => ∀ id f state, calls.Nodup → calls ⊆ a.module.instructionsOf f →
    Growing a K id f state c₀ calls → Reserved K s id →
    ∃ K', Advance K s K' s' ∧ Growing a K' id f state c [] ∧ Reserved K' s' id

/-- The ways contexts come about keep a session sound. -/
theorem Performs.makes (hm : a.module.Built) {t : Task} {c : Context} (h : Performs t s c s')
    (hs : s.Sound K) : t.Makes K s c s' := by
  induction h generalizing K with
  | @found f state entry _ c s s₁ s₂ hintern hlookup =>
    intro _
    have ha := intern_advance hs hintern
    have ha' := Advance.of_aside ha.sound (lookup_aside hlookup) (inProgress_lookup hlookup)
    have hmade := ha.sound.filed _ _ (lookup_cases hlookup).1
    exact ⟨K, ha.trans ha', hmade.mem, hmade.function,
      hmade.facts.trans (Interns.value_eq hs.interned hintern)⟩
  | @built f state entry r bare grown c s s₁ s₂ s₃ s₄ s₅ s₆ s₇ hintern hlookup hbegin hbare _
      hfinish hinsert ih =>
    intro hf
    have ha := (intern_advance hs hintern).trans (.of_aside (intern_advance hs hintern).sound
      (lookup_aside hlookup) (inProgress_lookup hlookup))
    obtain ⟨hfree, rfl⟩ := begin_cases hbegin
    obtain rfl := finish_cases hfinish
    have hmarked : Sound K { s₂ with inProgress := s₂.inProgress.insert ⟨f, entry.value⟩ } :=
      { ha.sound with }
    obtain ⟨hbare', hid, memo, hs₄⟩ := bareContext_cases hbare
    generalize bare.id = id at hbare' hid hs₄
    have ha₄ : Advance K { s₂ with inProgress := s₂.inProgress.insert ⟨f, entry.value⟩ } K s₄ := by
      rw [hs₄]
      exact .of_eq hmarked rfl rfl (Nat.le_succ_of_le hid) rfl
    have hstart : Growing a K id f entry bare (a.module.instructionsOf f) := by
      rw [hbare']
      exact { Context.bare_weighed hm f entry r id with
        id_eq := rfl
        function_eq := rfl
        state_eq := rfl
        made := fun v child hv => nomatch hv
        free := fun v hv => rfl }
    have hreserved : Reserved K s₄ id := by
      rw [hs₄]
      exact ⟨Nat.lt_succ_self id, fun c hc =>
        Nat.ne_of_lt (Nat.lt_of_lt_of_le (hmarked.id_lt c hc) hid)⟩
    obtain ⟨K', ha₅, hgrown, hid'⟩ := ih ha₄.sound id f entry (hm.nodup_instructionsOf f)
      (List.Subset.refl _) hstart hreserved
    have ha' := ha.trans (.marked hfree (ha₄.trans ha₅))
    have hconsistent : (prioritize (a := a) grown).Consistent a :=
      ⟨{ hgrown.toWeighed with }, hgrown.function_eq.symm ▸ hf, rfl⟩
    obtain ⟨K'', ha'', hmade⟩ := ha'.insertContext hconsistent hgrown.made
      (hgrown.id_eq.symm ▸ hid') (hgrown.id_eq.symm ▸ ha.nextId_le.trans hid) hinsert
    refine ⟨K'', ha'', hmade.mem, hmade.function.trans hgrown.function_eq, hmade.facts.trans ?_⟩
    exact (congrArg Shared.value hgrown.state_eq).trans (Interns.value_eq hs.interned hintern)
  | none => exact fun id f state _ _ hc hid => ⟨K, .refl hs, hc, hid⟩
  | skip _ _ ih =>
    intro id f state hnodup hcalls hc hid
    exact ih hs id f state hnodup.of_cons (List.cons_subset.mp hcalls).2 hc.skip hid
  | recursive _ hcall hintern _ _ ih =>
    intro id f state hnodup hcalls hc hid
    have ha := Advance.of_aside hs (doCall_quiet.aside hcall) (doCall_quiet.inProgress hcall)
    have ha' := ha.trans (intern_advance ha.sound hintern)
    obtain ⟨K', ha'', hdone⟩ := ih ha'.sound id f state hnodup.of_cons
      (List.cons_subset.mp hcalls).2 hc.skip (hid.advance ha')
    exact ⟨K', ha'.trans ha'', hdone⟩
  | child hcallee hcall hintern _ hmay _ _ ihchild ih =>
    intro id f state hnodup hcalls hc hid
    obtain ⟨hnot, hnodup⟩ := List.nodup_cons.mp hnodup
    obtain ⟨hmem, hcalls⟩ := List.cons_subset.mp hcalls
    obtain ⟨-, hdef⟩ := Option.filter_eq_some_iff.mp hcallee
    have ha₁ := Advance.of_aside hs (doCall_quiet.aside hcall) (doCall_quiet.inProgress hcall)
    have ha₂ := ha₁.trans (intern_advance ha₁.sound hintern)
    have ha₃ := ha₂.trans (.of_aside ha₂.sound (mayPoint_quiet.aside hmay)
      (mayPoint_quiet.inProgress hmay))
    obtain ⟨K₁, ha₄, hmade⟩ := ihchild ha₃.sound (Module.isSome_of_isDefined hdef)
    have ha := ha₃.trans ha₄
    obtain ⟨K₂, ha', hdone⟩ := ih ha.sound id f state hnodup hcalls
      ((hc.mono ha.made).addChild hmem hnot hmade.mem) (hid.advance ha)
    exact ⟨K₂, ha.trans ha', hdone⟩

/-- A construction gives a context of the function and the facts. -/
theorem construct_makes {f : FunctionId} {state : Descriptor} (hm : a.module.Built) (hs : s.Sound K)
    (hidle : ∀ key, s.inProgress.contains key = false)
    (hf : (a.module.function? f).isSome = true) (r : Bool) :
    Makes K s (construct f state r) fun K' _ c => MadeFor K' f state.value c :=
  (construct_performs hs.interned (hidle _) r).makes hm hs hf

end Session

end PmemPaths.Nvm
