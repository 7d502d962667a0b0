import PmemPaths.Proofs.Nvm.Consistency

/-!
# What a session keeps

A session never forgets: what is filed under a key and what is interned under some facts
stays there (`Session.Extends`).  What is filed was constructed for its key
(`Session.Constructed`), so its children are those of direct calls, each filed in turn
under the function that is called and what that function knows on entry.

Facts have identities.  No two descriptors that are known, to the session or to whoever
asked for them, have one identity (`Session.Signed`).  All operations that give a
descriptor give one that is known already or has a new identity (`Session.Signs`).
-/

namespace PmemPaths.Nvm

open PmemPaths.Ir

variable {a : Analysis} {β : Type}

namespace Session

variable {s s' s'' : Session a} {f : FunctionId} {d d' entry : Descriptor}
  {c c' : Context} {key : ContextKey} {t : Task}

/-! ## What stays -/

/-- What is filed stays filed, and what is interned stays interned. -/
structure Extends (s s' : Session a) : Prop where
  contexts : ∀ (key : ContextKey) (c : Context), s.contexts[key]? = some c →
    s'.contexts[key]? = some c
  interned : ∀ (facts : Facts) (d : Descriptor), s.interned[facts]? = some d →
    s'.interned[facts]? = some d
  nextId_le : s.nextId ≤ s'.nextId

theorem Extends.refl (s : Session a) : Extends s s :=
  ⟨fun _ _ h => h, fun _ _ h => h, Nat.le_refl _⟩

theorem Extends.trans (h : Extends s s') (h' : Extends s' s'') : Extends s s'' :=
  ⟨fun key c hc => h'.contexts key c (h.contexts key c hc),
    fun facts d hd => h'.interned facts d (h.interned facts d hd),
    h.nextId_le.trans h'.nextId_le⟩

theorem Aside.extends (h : Aside s s') : Extends s s' :=
  ⟨fun _ _ hc => h.contexts ▸ hc, fun _ _ hd => h.interned ▸ hd, h.nextId_le⟩

theorem intern_extends (h : intern d s = (entry, s')) : Extends s s' := by
  rcases intern_cases h with ⟨-, rfl⟩ | ⟨hnone, -, rfl⟩
  · exact .refl _
  · refine ⟨fun _ _ hc => hc, fun facts e he => ?_, Nat.le_refl _⟩
    rw [Std.HashMap.getElem?_insert]
    split
    · next hkey =>
      rw [← beq_iff_eq.mp hkey, hnone] at he
      cases he
    · exact he

/-- What interning gives is what is interned under the facts from then on. -/
theorem interned_intern (h : intern d s = (entry, s')) : s'.interned[d.value]? = some entry := by
  rcases intern_cases h with ⟨hd, rfl⟩ | ⟨-, rfl, rfl⟩
  · exact hd
  · exact Std.HashMap.getElem?_insert_self

theorem insert_extends (h : insert c s = (c', s')) : Extends s s' := by
  rcases insert_cases h with ⟨-, rfl⟩ | ⟨hnone, -, rfl⟩
  · exact .refl _
  · refine ⟨fun key e he => ?_, fun _ _ hd => hd, Nat.le_refl _⟩
    rw [Std.HashMap.getElem?_insert]
    split
    · next hkey =>
      rw [← beq_iff_eq.mp hkey, hnone] at he
      cases he
    · exact he

/-- No way in which contexts come about forgets anything. -/
theorem Performs.extends (h : Performs t s c s') : Extends s s' := by
  induction h with
  | found hintern hlookup => exact (intern_extends hintern).trans (lookup_aside hlookup).extends
  | built hintern hlookup hbegin hbare _ hfinish hinsert ih =>
    refine (intern_extends hintern).trans ((start_aside hlookup hbegin hbare).extends.trans ?_)
    exact ih.trans ((finish_aside hfinish).extends.trans (insert_extends hinsert))
  | none => exact .refl _
  | skip _ _ ih => exact ih
  | recursive _ hcall hintern _ _ ih =>
    exact (doCall_quiet.aside hcall).extends.trans ((intern_extends hintern).trans ih)
  | child _ hcall hintern _ hmay _ _ ihchild ih =>
    refine (doCall_quiet.aside hcall).extends.trans ((intern_extends hintern).trans ?_)
    exact (mayPoint_quiet.aside hmay).extends.trans (ihchild.trans ih)

/-! ## What is filed -/

/-- The context was constructed for the key: its children are those of direct calls of
defined functions, each filed under the function that is called and what that function
knows on entry. -/
structure Constructed (s : Session a) (key : ContextKey) (c : Context) : Prop where
  function : c.function = key.function
  state : s.interned[key.facts]? = some c.state
  /-- Each call has one child at most. -/
  keys : (c.children.map (·.1)).Nodup
  child : ∀ v child, c.child? v = some child → v ∈ a.module.instructionsOf key.function ∧
    ∃ callee, a.module.calledFunction? v = some callee ∧ a.module.isDefined callee = true ∧
      s.contexts[(⟨callee, key.facts.onEntry a v callee⟩ : ContextKey)]? = some child

/-- What is interned are the facts asked for, and what is filed was constructed for its
key. -/
structure Ordered (s : Session a) : Prop where
  interns : s.Interns
  filed : ∀ (key : ContextKey) (c : Context), s.contexts[key]? = some c → s.Constructed key c

theorem Ordered.empty : Ordered ({} : Session a) where
  interns facts d hd := by simp at hd
  filed key c hc := by simp at hc

/-- What was constructed for a key stays so, since nothing filed is lost. -/
theorem Constructed.mono (h : s.Constructed key c) (he : Extends s s') : s'.Constructed key c where
  function := h.function
  state := he.interned _ _ h.state
  keys := h.keys
  child v child hv := by
    obtain ⟨hmem, callee, hcalled, hdef, hfiled⟩ := h.child v child hv
    exact ⟨hmem, callee, hcalled, hdef, he.contexts _ _ hfiled⟩

/-- What was constructed for a key is to be filed under it. -/
theorem Constructed.key_eq (h : s.Constructed key c) (hs : s.Interns) :
    (⟨c.function, c.state.value⟩ : ContextKey) = key := by
  rw [h.function, hs _ _ h.state]

theorem Ordered.aside (hs : s.Ordered) (h : Aside s s') : s'.Ordered where
  interns := hs.interns.aside h
  filed key c hc := (hs.filed key c (h.contexts ▸ hc)).mono h.extends

theorem Ordered.intern (hs : s.Ordered) (h : intern d s = (entry, s')) : s'.Ordered where
  interns := hs.interns.intern h
  filed key c hc := by
    refine (hs.filed key c ?_).mono (intern_extends h)
    rcases intern_cases h with ⟨-, rfl⟩ | ⟨-, -, rfl⟩ <;> exact hc

/-- Once a context that was constructed for a key is filed, there is one under that key. -/
theorem Ordered.insert (hs : s.Ordered) (hc : s.Constructed key c) (h : insert c s = (c', s')) :
    s'.Ordered ∧ s'.contexts[key]? = some c' := by
  have he := insert_extends h
  have hkey := hc.key_eq hs.interns
  rcases insert_cases h with ⟨hknown, rfl⟩ | ⟨-, rfl, rfl⟩
  · exact ⟨hs, hkey ▸ hknown⟩
  · rw [hkey] at he ⊢
    refine ⟨⟨hs.interns, fun k e hk => ?_⟩, Std.HashMap.getElem?_insert_self⟩
    rw [Std.HashMap.getElem?_insert] at hk
    split at hk
    · next heq =>
      cases hk
      exact beq_iff_eq.mp heq ▸ hc.mono he
    · exact (hs.filed k e hk).mono he

section SetChild

variable {call v : ValueId} {child : Context} {children : List (ValueId × Context)}

theorem mem_keys_setChild (hv : v ∈ (Context.setChild call child children).map (·.1)) :
    v = call ∨ v ∈ children.map (·.1) := by
  induction children with
  | nil => exact .inl (List.mem_singleton.mp hv)
  | cons e es ih =>
    rw [Context.setChild] at hv
    split at hv
    · rw [List.map_cons, List.mem_cons] at hv
      exact hv.imp_right (List.mem_cons_of_mem _)
    · rw [List.map_cons, List.mem_cons] at hv
      rcases hv with rfl | hv
      · exact .inr List.mem_cons_self
      · exact (ih hv).imp_right (List.mem_cons_of_mem _)

/-- A call that has a child already gets the new one in its place. -/
theorem nodup_setChild (h : (children.map (·.1)).Nodup) :
    ((Context.setChild call child children).map (·.1)).Nodup := by
  induction children with
  | nil => exact List.nodup_singleton _
  | cons e es ih =>
    obtain ⟨hnot, hnodup⟩ := List.nodup_cons.mp h
    rw [Context.setChild]
    split
    · next heq => exact List.nodup_cons.mpr ⟨heq ▸ hnot, hnodup⟩
    · next hne =>
      refine List.nodup_cons.mpr ⟨fun hin => ?_, ih hnodup⟩
      exact (mem_keys_setChild hin).elim hne hnot

end SetChild

/-- The context is filed under its key, or grew to one that was constructed if it was
one. -/
def Task.Files (s : Session a) (c : Context) (s' : Session a) : Task → Prop
  | .context f state _ => s'.contexts[(⟨f, state.value⟩ : ContextKey)]? = some c
  | .children c₀ calls => ∀ key : ContextKey, calls ⊆ a.module.instructionsOf key.function →
    s.Constructed key c₀ → s'.Constructed key c

/-- The ways contexts come about keep a session in order. -/
theorem Performs.files (h : Performs t s c s') (hs : s.Ordered) :
    s'.Ordered ∧ t.Files s c s' := by
  induction h with
  | @found f state entry _ c s s₁ s₂ hintern hlookup =>
    have haside := lookup_aside hlookup
    refine ⟨(hs.intern hintern).aside haside, ?_⟩
    rw [Task.Files, haside.contexts, ← hs.interns.value_eq hintern]
    exact (lookup_cases hlookup).1
  | @built f state entry r bare grown c s s₁ s₂ s₃ s₄ s₅ s₆ s₇ hintern hlookup hbegin hbare _
      hfinish hinsert ih =>
    have haside := start_aside hlookup hbegin hbare
    have hentry := hs.interns.value_eq hintern
    have hstart : s₄.Constructed ⟨f, entry.value⟩ bare := by
      rw [(bareContext_cases hbare).1]
      refine ⟨rfl, ?_, List.nodup_nil, fun v child hv => nomatch hv⟩
      rw [haside.interned, hentry]
      exact interned_intern hintern
    obtain ⟨hs₅, hgrown⟩ := ih ((hs.intern hintern).aside haside)
    have haside' := finish_aside hfinish
    have hfinal : s₆.Constructed ⟨f, entry.value⟩ (prioritize (a := a) grown) :=
      { (hgrown _ (List.Subset.refl _) hstart).mono haside'.extends with }
    obtain ⟨hs₇, hfiled⟩ := (hs₅.aside haside').insert hfinal hinsert
    rw [hentry] at hfiled
    exact ⟨hs₇, hfiled⟩
  | none => exact ⟨hs, fun key _ hc => hc⟩
  | skip _ _ ih =>
    obtain ⟨hs', hdone⟩ := ih hs
    exact ⟨hs', fun key hcalls => hdone key (List.cons_subset.mp hcalls).2⟩
  | recursive _ hcall hintern _ _ ih =>
    have haside := doCall_quiet.aside hcall
    obtain ⟨hs', hdone⟩ := ih ((hs.aside haside).intern hintern)
    exact ⟨hs', fun key hcalls hc => hdone key (List.cons_subset.mp hcalls).2
      (hc.mono (haside.extends.trans (intern_extends hintern)))⟩
  | @child c₀ child c' call calls callee d state r s s₁ s₂ s₃ s₄ s' hcallee hcall hintern _ hmay
      hchild _ ihchild ih =>
    obtain ⟨hcalled, hdef⟩ := Option.filter_eq_some_iff.mp hcallee
    have hs₁ := hs.aside (doCall_quiet.aside hcall)
    obtain ⟨hs₄, hfiled⟩ := ihchild ((hs₁.intern hintern).aside (mayPoint_quiet.aside hmay))
    obtain ⟨hs', hdone⟩ := ih hs₄
    refine ⟨hs', fun key hcalls hc => ?_⟩
    obtain ⟨hmem, hcalls⟩ := List.cons_subset.mp hcalls
    have he : Extends s s₄ := (doCall_quiet.aside hcall).extends.trans
      ((intern_extends hintern).trans
        ((mayPoint_quiet.aside hmay).extends.trans hchild.extends))
    have hc₄ := hc.mono he
    refine hdone key hcalls ⟨hc₄.function, hc₄.state, nodup_setChild hc₄.keys, fun v w hw => ?_⟩
    rw [Context.child?_of_children_eq rfl] at hw
    split at hw
    · next hv =>
      cases hw
      subst hv
      have hvalue : state.value = key.facts.onEntry a v callee := by
        rw [hs₁.interns.value_eq hintern, (doCall_quiet.run hcall).2, hs.interns _ _ hc.state]
      exact ⟨hmem, callee, hcalled, hdef, hvalue ▸ hfiled⟩
    · exact hc₄.child v w hw

/-! ## Identities of facts -/

section Identities

variable {D D' : Set Descriptor}

/-- The descriptor is one of the given ones, or interned. -/
def Known (D : Set Descriptor) (s : Session a) (d : Descriptor) : Prop :=
  d ∈ D ∨ s.interned[d.value]? = some d

/-- The descriptors that are known have identities that were given, each its own. -/
structure Signed (D : Set Descriptor) (s : Session a) : Prop where
  id_lt : ∀ d, Known D s d → d.id < s.nextId
  id_inj : ∀ d d', Known D s d → Known D s d' → d.id = d'.id → d = d'

theorem Signed.empty : Signed ∅ ({} : Session a) where
  id_lt d hd := by simp [Known] at hd
  id_inj d d' hd := by simp [Known] at hd

theorem Known.mono (h : Known D s d) (he : Extends s s') : Known D s' d :=
  h.imp_right (he.interned _ _)

/-- What is known stays signed where no more is known. -/
theorem Signed.of_known (h : Signed D s) (hknown : ∀ d, Known D' s' d → Known D s d)
    (hnext : s.nextId ≤ s'.nextId) : Signed D' s' where
  id_lt d hd := Nat.lt_of_lt_of_le (h.id_lt d (hknown d hd)) hnext
  id_inj d d' hd hd' := h.id_inj d d' (hknown d hd) (hknown d' hd')

theorem Signed.anti (h : Signed D s) (hsub : D' ⊆ D) : Signed D' s :=
  h.of_known (fun _ hd => hd.imp_left (hsub ·)) (Nat.le_refl _)

theorem Signed.aside (h : Signed D s) (hs : Aside s s') : Signed D s' :=
  h.of_known (fun _ hd => hd.imp_right (hs.interned ▸ ·)) hs.nextId_le

theorem Signed.of_interned (h : Signed D s) (heq : s'.interned = s.interned)
    (hnext : s'.nextId = s.nextId) : Signed D s' :=
  h.of_known (fun _ hd => hd.imp_right (heq ▸ ·)) hnext.ge

theorem Signed.intern (h : Signed D s) (hd : Known D s d) (hrun : intern d s = (entry, s')) :
    Signed D s' := by
  rcases intern_cases hrun with ⟨-, rfl⟩ | ⟨-, -, rfl⟩
  · exact h
  · refine h.of_known (fun e he => ?_) (Nat.le_refl _)
    rcases he with he | he
    · exact .inl he
    · rw [Std.HashMap.getElem?_insert] at he
      split at he
      · cases he
        exact hd
      · exact .inr he

/-- Given something known, the operation gives what is known, or has a new identity. -/
def Signs (d : Descriptor) (act : SessionM a Descriptor) : Prop :=
  ∀ s D, Signed D s → Known D s d → Signed (D ∪ {(act s).1}) (act s).2

theorem Signed.add_known (h : Signed D s) (hd : Known D s d) : Signed (D ∪ {d}) s := by
  refine h.of_known (fun e he => ?_) (Nat.le_refl _)
  rcases he with (he | rfl) | he
  · exact .inl he
  · exact hd
  · exact .inr he

/-- New facts get an identity that nothing has. -/
theorem Signed.fresh (h : Signed D s) (facts : Facts) :
    Signed (D ∪ {⟨s.nextId, facts⟩}) { s with nextId := s.nextId + 1 } := by
  have hknown : ∀ e, Known (D ∪ {⟨s.nextId, facts⟩}) { s with nextId := s.nextId + 1 } e →
      e = ⟨s.nextId, facts⟩ ∨ Known D s e := by
    rintro e ((he | rfl) | he)
    · exact .inr (.inl he)
    · exact .inl rfl
    · exact .inr (.inr he)
  constructor
  · intro e he
    rcases hknown e he with rfl | he
    · exact Nat.lt_succ_self _
    · exact Nat.lt_succ_of_lt (h.id_lt e he)
  · intro e e' he he' heq
    rcases hknown e he with rfl | he <;> rcases hknown e' he' with rfl | he'
    · rfl
    · exact absurd heq (Nat.ne_of_gt (h.id_lt e' he'))
    · exact absurd heq (Nat.ne_of_lt (h.id_lt e he))
    · exact h.id_inj e e' he he' heq

theorem share_signs {facts : Facts} : Signs (a := a) d (share d facts) := by
  intro s D hs hd
  rw [share]
  split
  · exact hs.add_known hd
  · exact hs.fresh facts

/-- An operation that asks first signs what the rest of it signs. -/
theorem Quiet.signs {act : SessionM a β} {P : β → Prop} {next : β → SessionM a Descriptor}
    (h : Quiet act P) (hnext : ∀ b, Signs d (next b)) : Signs d (act >>= next) := by
  intro s D hs hd
  have haside := h.aside (s := s) rfl
  rw [bind_run]
  exact hnext _ _ _ (hs.aside haside) (hd.mono haside.extends)

theorem doCall_signs {call : ValueId} {callee : FunctionId} :
    Signs (a := a) d (doCall d call callee) := by
  rw [doCall]
  split
  · exact fun s D hs hd => hs.add_known hd
  · exact volatileParams_quiet.signs fun _ => share_signs

/-- The caller's descriptor stays in use where nothing changes. -/
theorem doReturn_signs {caller : Descriptor} {ret call : ValueId} :
    Signs (a := a) caller (doReturn d caller ret call) := by
  rw [doReturn]
  dsimp only
  split
  · exact mayPoint_quiet.signs fun _ => share_signs
  · exact share_signs

theorem update_signs {v : ValueId} {isNvm : Bool} : Signs (a := a) d (update d v isNvm) :=
  share_signs

/-- A descriptor that is new or shared is interned next. -/
theorem Signed.intern_signs {act : SessionM a Descriptor} (h : Signed D s) (hd : Known D s d)
    (hact : Signs d act) (hrun : act s = (d', s')) (hintern : Session.intern d' s' = (entry, s'')) :
    Signed D s'' := by
  have hsigned := hact s D h hd
  rw [hrun] at hsigned
  exact (hsigned.intern (.inl (.inr rfl)) hintern).anti Set.subset_union_left

/-- The facts a task starts from are known. -/
def Task.Known (D : Set Descriptor) (s : Session a) : Task → Prop
  | .context _ state _ => Session.Known D s state
  | .children c _ => Session.Known D s c.state

/-- The ways contexts come about keep the identities of facts apart. -/
theorem Performs.signed (h : Performs t s c s') (hi : s.Interns) (hs : Signed D s)
    (ht : t.Known D s) : Signed D s' := by
  induction h with
  | found hintern hlookup => exact (hs.intern ht hintern).aside (lookup_aside hlookup)
  | @built f state entry _ bare _ _ s _ _ _ s₄ _ _ _ hintern hlookup hbegin hbare _ hfinish
      hinsert ih =>
    have haside := start_aside hlookup hbegin hbare
    have hentry : Session.Known D s₄ bare.state := by
      rw [(bareContext_cases hbare).1, Session.Known, haside.interned]
      exact .inr (hi.value_eq hintern ▸ interned_intern hintern)
    have hgrown := ih ((hi.intern hintern).aside haside)
      ((hs.intern ht hintern).aside haside) hentry
    refine (hgrown.aside (finish_aside hfinish)).of_interned (interned_insert hinsert) ?_
    rcases insert_cases hinsert with ⟨-, rfl⟩ | ⟨-, -, rfl⟩ <;> rfl
  | none => exact hs
  | skip _ _ ih => exact ih hi hs ht
  | recursive _ hcall hintern _ _ ih =>
    have haside := doCall_quiet.aside hcall
    exact ih ((hi.aside haside).intern hintern) (hs.intern_signs ht doCall_signs hcall hintern)
      (Session.Known.mono ht (haside.extends.trans (intern_extends hintern)))
  | @child _ _ _ _ _ _ _ state _ s _ s₂ s₃ _ _ _ hcall hintern _ hmay hchild _ ihchild ih =>
    have haside := doCall_quiet.aside hcall
    have hmay := mayPoint_quiet.aside hmay
    have hi₁ := hi.aside haside
    have hi₃ := (hi₁.intern hintern).aside hmay
    have hstate : Session.Known D s₃ state := by
      rw [Session.Known, hmay.interned]
      exact .inr (hi₁.value_eq hintern ▸ interned_intern hintern)
    have hs₄ := ihchild hi₃ ((hs.intern_signs ht doCall_signs hcall hintern).aside hmay) hstate
    refine ih (hchild.interns hi₃) hs₄ (Session.Known.mono ht ?_)
    exact haside.extends.trans ((intern_extends hintern).trans (hmay.extends.trans hchild.extends))

end Identities

end Session

end PmemPaths.Nvm
