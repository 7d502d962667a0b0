import PmemPaths.Proofs.Nvm.Filing
import PmemPaths.Proofs.Nvm.Replacement

/-!
# What operations on contexts keep

No operation on contexts loses anything: what is filed and interned stays, and no two
descriptors get one identity (`Session.Later`).  The contexts that operations give are
rooted in the session, they and everything below them: what they know is interned, and
their functions have a property that all functions with a body have (`Session.Rooted`).

What a context knows about its calls is which function it has a child of
(`Context.callee?`).  A call that was found to call a function with a body has a child of
that function (`Session.resolveCall_keeps`), and other facts change nothing about indirect
calls (`Session.rebuild_keeps`), although the context that they lead to comes with children
for direct calls only.
-/

namespace PmemPaths.Ir.Module

/-- The value is a call through a pointer. -/
def isIndirectCall (m : Module) (v : ValueId) : Bool :=
  match m.operation? v with
  | some (.call (.indirect _) _) => true
  | _ => false

theorem isIndirectCall_of_calledFunction? {m : Module} {v : ValueId} {f : FunctionId}
    (h : m.calledFunction? v = some f) : m.isIndirectCall v = false := by
  rw [calledFunction?] at h
  rw [isIndirectCall]
  split at h
  · next hop => rw [hop]
  · cases h

end PmemPaths.Ir.Module

namespace PmemPaths.Nvm

open PmemPaths.Ir

variable {a : Analysis} {β γ : Type}

/-! ## Contexts and what is below them -/

namespace Context

variable {P Q : Context → Prop} {c c' : Context} {v call : ValueId}

/-- A property holds of a context and of all contexts below it. -/
inductive All (P : Context → Prop) : Context → Prop
  | intro {c : Context} : P c → (∀ v child, c.child? v = some child → All P child) → All P c

theorem All.self (h : c.All P) : P c := by
  cases h
  assumption

theorem All.child (h : c.All P) (hv : c.child? v = some c') : c'.All P := by
  cases h with
  | intro _ hbelow => exact hbelow v c' hv

theorem All.imp (himp : ∀ c, P c → Q c) (h : c.All P) : c.All Q := by
  induction h with
  | intro hc _ ih => exact .intro (himp _ hc) ih

theorem All.revise {m : Module} {id : Nat} (h : c.All P) (hchild : c'.All P)
    (hself : P (Session.revise m c id call c')) : (Session.revise m c id call c').All P := by
  refine .intro hself fun v w hw => ?_
  rw [Session.child?_revise] at hw
  split at hw
  · cases hw
    exact hchild
  · exact h.child hw

/-- A child is smaller than its context. -/
theorem sizeOf_child_lt (h : c.child? v = some c') : sizeOf c' < sizeOf c := by
  obtain ⟨e, he, rfl⟩ := Option.map_eq_some_iff.mp h
  have hmem := List.sizeOf_lt_of_mem (List.mem_of_find?_eq_some he)
  cases c
  cases e
  simp only [Context.mk.sizeOf_spec, Prod.mk.sizeOf_spec] at *
  omega

/-- A call that has one child at most has the one that is listed. -/
theorem child?_eq_some (hc : (c.children.map (·.1)).Nodup) :
    c.child? v = some c' ↔ (v, c') ∈ c.children := by
  rw [child?, Option.map_eq_some_iff]
  constructor
  · rintro ⟨x, hx, rfl⟩
    have hv : x.1 = v := of_decide_eq_true (List.find?_some hx :)
    exact hv ▸ List.mem_of_find?_eq_some hx
  · intro hmem
    have hsome : (c.children.find? (·.1 = v)).isSome = true :=
      List.find?_isSome.mpr ⟨(v, c'), hmem, decide_eq_true rfl⟩
    obtain ⟨x, hx⟩ := Option.isSome_iff_exists.mp hsome
    have hv : x.1 = v := of_decide_eq_true (List.find?_some hx :)
    have heq := List.inj_on_of_nodup_map hc (List.mem_of_find?_eq_some hx) hmem hv
    exact ⟨x, hx, heq ▸ rfl⟩

/-- The function that a call has a child of. -/
def callee? (c : Context) (v : ValueId) : Option FunctionId := (c.child? v).map (·.function)

theorem callee?_revise {m : Module} {id : Nat} (v : ValueId) :
    (Session.revise m c id call c').callee? v =
      if v = call then some c'.function else c.callee? v := by
  rw [callee?, Session.child?_revise]
  split <;> rfl

end Context

namespace Session

variable {s s' s'' : Session a} {D D' D'' : Set Descriptor} {P : FunctionId → Prop}
  {c c' child : Context} {call v : ValueId} {f callee : FunctionId} {state d : Descriptor}

/-- What the context knows is interned, its function has the property, and each of its calls
has one child at most. -/
structure Proper (P : FunctionId → Prop) (s : Session a) (c : Context) : Prop where
  function : P c.function
  state : s.interned[c.state.value]? = some c.state
  keys : (c.children.map (·.1)).Nodup

/-- The context and all contexts below it are proper. -/
def Rooted (P : FunctionId → Prop) (s : Session a) (c : Context) : Prop := c.All (s.Proper P)

theorem Rooted.mono (h : s.Rooted P c) (he : Extends s s') : s'.Rooted P c :=
  h.imp fun _ hc => ⟨hc.function, he.interned _ _ hc.state, hc.keys⟩

theorem Rooted.known (h : s.Rooted P c) : Known D s c.state := .inr h.self.state

theorem Rooted.revise {m : Module} {id : Nat} (h : s.Rooted P c) (hchild : s.Rooted P child) :
    s.Rooted P (revise m c id call child) :=
  Context.All.revise h hchild ⟨h.self.function, h.self.state, nodup_setChild h.self.keys⟩

/-- What is filed is filed with everything below it, and all functions have the property if
the one it is filed under does. -/
theorem Ordered.all_filed {key : ContextKey} {c : Context} (hs : s.Ordered)
    (hP : ∀ f, a.module.isDefined f = true → P f) (hc : s.contexts[key]? = some c)
    (hkey : P key.function) :
    c.All fun c => P c.function ∧
      s.contexts[(⟨c.function, c.state.value⟩ : ContextKey)]? = some c := by
  have hcons := hs.filed key c hc
  refine .intro ⟨hcons.function ▸ hkey, hcons.key_eq hs.interns ▸ hc⟩ fun v child hv => ?_
  obtain ⟨-, callee, -, hdef, hfiled⟩ := hcons.child v child hv
  have hlt := Context.sizeOf_child_lt hv
  exact hs.all_filed hP hfiled (hP callee hdef)
termination_by sizeOf c

theorem Ordered.rooted {key : ContextKey} (hs : s.Ordered)
    (hP : ∀ f, a.module.isDefined f = true → P f) (hc : s.contexts[key]? = some c)
    (hkey : P key.function) : s.Rooted P c :=
  (hs.all_filed hP hc hkey).imp fun _ hfiled =>
    have hcons := hs.filed _ _ hfiled.2
    ⟨hfiled.1, hcons.state, hcons.keys⟩

/-! ## A session goes on -/

/-- Nothing is lost, more descriptors may be known, and what is known stays signed.  In the
end the session is in order, and nothing is under construction. -/
structure Later (D : Set Descriptor) (s : Session a) (D' : Set Descriptor) (s' : Session a) :
    Prop extends Extends s s' where
  known : D ⊆ D'
  ordered : s'.Ordered
  idle : s'.Idle
  signed : Signed D s → Signed D' s'

theorem Later.refl (hs : s.Ordered) (hidle : s.Idle) : Later D s D s :=
  { Extends.refl s with known := subset_rfl, ordered := hs, idle := hidle, signed := id }

theorem Later.trans (h : Later D s D' s') (h' : Later D' s' D'' s'') : Later D s D'' s'' :=
  { h.toExtends.trans h'.toExtends with
    known := h.known.trans h'.known
    ordered := h'.ordered
    idle := h'.idle
    signed := fun hs => h'.signed (h.signed hs) }

theorem Later.of_known (h : Later D s D' s') (hd : Known D s d) : Known D' s' d :=
  hd.imp (h.known ·) (h.interned _ _)

/-- The operation takes the session on, and its result has a property. -/
def Keeps (D : Set Descriptor) (s : Session a) (act : SessionM a β)
    (Q : Set Descriptor → Session a → β → Prop) : Prop :=
  ∃ D', Later D s D' (act s).2 ∧ Q D' (act s).2 (act s).1

section Judgement

variable {Q : Set Descriptor → Session a → β → Prop} {R : Set Descriptor → Session a → γ → Prop}
  {act : SessionM a β}

theorem Keeps.pure {b : β} (hs : s.Ordered) (hidle : s.Idle) (hb : Q D s b) :
    Keeps D s (Pure.pure b) Q := ⟨D, .refl hs hidle, hb⟩

theorem Keeps.bind {next : β → SessionM a γ} (h : Keeps D s act Q)
    (hnext : ∀ D' s' b, Later D s D' s' → Q D' s' b → Keeps D' s' (next b) R) :
    Keeps D s (act >>= next) R := by
  obtain ⟨D', hl, hb⟩ := h
  obtain ⟨D'', hl', hc⟩ := hnext D' _ _ hl hb
  exact ⟨D'', hl.trans hl', hc⟩

theorem Keeps.imp {Q' : Set Descriptor → Session a → β → Prop} (h : Keeps D s act Q)
    (himp : ∀ D' s' b, Later D s D' s' → Q D' s' b → Q' D' s' b) : Keeps D s act Q' := by
  obtain ⟨D', hl, hb⟩ := h
  exact ⟨D', hl, himp D' _ _ hl hb⟩

/-- What an operation makes, and what it keeps. -/
theorem Keeps.and_makes {K : Set Context} {A : Set Context → Session a → β → Prop}
    (h : Keeps D s act Q) (hmakes : Makes K s act A) :
    Keeps D s act fun D' s' b => Q D' s' b ∧ ∃ K', Advance K s K' s' ∧ A K' s' b := by
  obtain ⟨D', hl, hb⟩ := h
  exact ⟨D', hl, hb, hmakes⟩

/-- An operation that goes through takes both along. -/
theorem Makes.with_keeps {K : Set Context} {A : Set Context → Session a → β → Prop} {b : β}
    (hmakes : Makes K s act A) (h : Keeps D s act Q) (hrun : act s = (b, s')) :
    ∃ K' D', Advance K s K' s' ∧ Later D s D' s' ∧ A K' s' b ∧ Q D' s' b := by
  obtain ⟨K', ha, hb⟩ := hmakes
  obtain ⟨D', hl, hb'⟩ := h
  rw [hrun] at ha hb hl hb'
  exact ⟨K', D', ha, hl, hb, hb'⟩

theorem Later.of_aside (hs : s.Ordered) (hidle : s.Idle) (haside : Aside s s')
    (hmarks : s'.inProgress = s.inProgress) : Later D s D s' :=
  { haside.extends with
    known := subset_rfl
    ordered := hs.aside haside
    idle := fun key => hmarks ▸ hidle key
    signed := fun hsigned => hsigned.aside haside }

theorem Quiet.keeps {A : β → Prop} (h : Quiet act A) (hs : s.Ordered) (hidle : s.Idle) :
    Keeps D s act fun _ _ b => A b :=
  ⟨D, .of_aside hs hidle (h.aside rfl) (h.inProgress rfl), h.run rfl |>.2⟩

/-- The descriptor that is given is known from then on. -/
theorem Signs.keeps {act : SessionM a Descriptor} {A : Descriptor → Prop} (h : Signs d act)
    (hquiet : Quiet act A) (hs : s.Ordered) (hidle : s.Idle) (hd : Known D s d) :
    Keeps D s act fun D' _ d' => A d' ∧ d' ∈ D' :=
  ⟨D ∪ {(act s).1},
    { Later.of_aside (D := D) hs hidle (hquiet.aside rfl) (hquiet.inProgress rfl) with
      known := Set.subset_union_left
      signed := fun hsigned => h s D hsigned hd }, hquiet.run rfl |>.2, .inr rfl⟩

/-- A new identity may be given to any facts. -/
theorem fresh_keeps (hs : s.Ordered) (hidle : s.Idle) (facts : Facts) :
    Keeps D s fresh fun D' _ id => ⟨id, facts⟩ ∈ D' :=
  ⟨D ∪ {⟨s.nextId, facts⟩},
    { Later.of_aside (D := D) hs hidle (fresh_quiet.aside rfl) (fresh_quiet.inProgress rfl) with
      known := Set.subset_union_left
      signed := fun hsigned => hsigned.fresh facts }, .inr rfl⟩

theorem intern_keeps (hs : s.Ordered) (hidle : s.Idle) (hd : Known D s d) :
    Keeps D s (intern d) fun D' s' entry => Known D' s' entry := by
  generalize hrun : intern d s = r
  obtain ⟨entry, s'⟩ := r
  rw [Keeps, hrun]
  refine ⟨D, ?_, .inr (hs.interns.value_eq hrun ▸ interned_intern hrun)⟩
  exact { intern_extends hrun with
    known := subset_rfl
    ordered := hs.intern hrun
    idle := fun key => inProgress_intern hrun ▸ hidle key
    signed := fun hsigned => hsigned.intern hd hrun }

end Judgement

/-! ## Operations on contexts -/

/-- What is constructed is filed. -/
theorem construct_keeps (hs : s.Ordered) (hidle : s.Idle) (hstate : Known D s state) (r : Bool) :
    Keeps D s (construct f state r) fun _ s' c =>
      s'.contexts[(⟨f, state.value⟩ : ContextKey)]? = some c := by
  have hperforms := construct_performs hs.interns (hidle ⟨f, state.value⟩) r
  obtain ⟨hs', hfiled⟩ := hperforms.files hs
  exact ⟨D, { hperforms.extends with
    known := subset_rfl
    ordered := hs'
    idle := fun key => (hperforms.marks key).trans (hidle key)
    signed := fun hsigned => hperforms.signed hs.interns hsigned hstate }, hfiled⟩

theorem withChild_keeps (hs : s.Ordered) (hidle : s.Idle) (hc : s.Rooted P c)
    (hchild : s.Rooted P child) (call : ValueId) :
    Keeps D s (withChild c call child) fun _ s' c' =>
      s'.Rooted P c' ∧ c' = revise a.module c s.nextId call child := by
  have haside : Aside s { s with nextId := s.nextId + 1 } := ⟨rfl, rfl, Nat.le_succ _⟩
  rw [Keeps, withChild_run]
  exact ⟨D, .of_aside hs hidle haside rfl, (hc.revise hchild).mono haside.extends, rfl⟩

variable (hP : ∀ f, a.module.isDefined f = true → P f)

include hP

/-- A call that was found to call a function with a body has a child of that function. -/
theorem resolveCall_keeps (hs : s.Ordered) (hidle : s.Idle) (hc : s.Rooted P c)
    (call : ValueId) (callee : FunctionId) :
    Keeps D s (resolveCall c call callee) fun _ s' c' =>
      s'.Rooted P c' ∧ c'.function = c.function ∧ ∀ v, c'.callee? v =
        if v = call ∧ a.module.isDefined callee = true then some callee else c.callee? v := by
  rw [resolveCall]
  split
  · next hkeep =>
    refine .pure hs hidle ⟨hc, rfl, fun v => ?_⟩
    split
    · next hv =>
      obtain ⟨rfl, hdef⟩ := hv
      rw [hdef, Bool.not_true, Bool.or_false, Option.any_eq_true] at hkeep
      obtain ⟨child, hchild, hfun⟩ := hkeep
      rw [Context.callee?, hchild, Option.map_some, of_decide_eq_true hfun]
    · rfl
  · next hchange =>
    have hdef : a.module.isDefined callee = true := by
      simpa using fun hnot => hchange (Bool.or_eq_true_iff.mpr (.inr hnot))
    refine (doCall_signs.keeps doCall_quiet hs hidle hc.known).bind fun D₁ s₁ state h₁ hstate => ?_
    refine (mayPoint_quiet.keeps h₁.ordered h₁.idle).bind fun D₂ s₂ r h₂ _ => ?_
    refine (construct_keeps h₂.ordered h₂.idle (h₂.of_known (.inl hstate.2)) r).bind
      fun D₃ s₃ child h₃ hfiled => ?_
    have hchild := h₃.ordered.rooted hP hfiled (hP callee hdef)
    have hc' := hc.mono (h₁.trans (h₂.trans h₃)).toExtends
    refine (withChild_keeps h₃.ordered h₃.idle hc' hchild call).imp fun D₄ s₄ c' _ hc' => ?_
    obtain ⟨hrooted, rfl⟩ := hc'
    refine ⟨hrooted, rfl, fun v => ?_⟩
    rw [Context.callee?_revise, (h₃.ordered.filed _ _ hfiled).function]
    simp only [hdef, and_true]

/-- Several calls, each at most once, that were found to call functions with bodies. -/
theorem foldlM_resolveCall_keeps (calls : List (ValueId × FunctionId)) (hs : s.Ordered)
    (hidle : s.Idle) (hc : s.Rooted P c) :
    Keeps D s (calls.foldlM (fun c (call, callee) => resolveCall c call callee) c) fun _ s' c' =>
      s'.Rooted P c' ∧ c'.function = c.function ∧
        (∀ v ∉ calls.map (·.1), c'.callee? v = c.callee? v) ∧
        ((calls.map (·.1)).Nodup → (∀ e ∈ calls, a.module.isDefined e.2 = true) →
          ∀ e ∈ calls, c'.callee? e.1 = some e.2) := by
  induction calls generalizing c s D with
  | nil => exact .pure hs hidle ⟨hc, rfl, fun _ _ => rfl, fun _ _ e he => nomatch he⟩
  | cons e calls ih =>
    rw [List.foldlM_cons]
    refine (resolveCall_keeps hP hs hidle hc e.1 e.2).bind fun D₁ s₁ c₁ h₁ hc₁ => ?_
    obtain ⟨hrooted, hfun, hcallee⟩ := hc₁
    refine (ih h₁.ordered h₁.idle hrooted).imp fun D₂ s₂ c₂ _ hc₂ => ?_
    obtain ⟨hrooted', hfun', hother, heach⟩ := hc₂
    refine ⟨hrooted', hfun'.trans hfun, fun v hv => ?_, fun hnodup hdef e' he' => ?_⟩
    · rw [List.map_cons, List.mem_cons, not_or] at hv
      rw [hother v hv.2, hcallee, if_neg fun h => hv.1 h.1]
    · obtain ⟨hnot, hnodup⟩ := List.nodup_cons.mp hnodup
      obtain ⟨hdef, hdefs⟩ := List.forall_mem_cons.mp hdef
      rcases List.mem_cons.mp he' with rfl | he'
      · rw [hother _ hnot, hcallee, if_pos ⟨rfl, hdef⟩]
      · exact heach hnodup hdefs e' he'

omit hP in
/-- The indirect calls that have a child, each with the function of the child. -/
theorem mem_resolvedCalls (hc : (c.children.map (·.1)).Nodup) {e : ValueId × FunctionId} :
    e ∈ resolvedCalls a.module c ↔
      a.module.isIndirectCall e.1 = true ∧ c.callee? e.1 = some e.2 := by
  rw [resolvedCalls, List.mem_mergeSort, List.mem_map]
  constructor
  · rintro ⟨x, hx, rfl⟩
    obtain ⟨hmem, hindirect⟩ := List.mem_filter.mp hx
    refine ⟨hindirect, ?_⟩
    rw [Context.callee?, (Context.child?_eq_some hc).mpr hmem]
    rfl
  · rintro ⟨hindirect, hcallee⟩
    obtain ⟨w, hw, hfun⟩ := Option.map_eq_some_iff.mp hcallee
    have hmem := (Context.child?_eq_some hc).mp hw
    exact ⟨(e.1, w), List.mem_filter.mpr ⟨hmem, hindirect⟩, Prod.ext rfl hfun⟩

omit hP in
theorem nodup_resolvedCalls (hc : (c.children.map (·.1)).Nodup) :
    ((resolvedCalls a.module c).map (·.1)).Nodup := by
  rw [resolvedCalls, ((List.mergeSort_perm _ _).map _).nodup_iff, List.map_map]
  exact hc.sublist (List.filter_sublist.map _)

/-- Under other facts the indirect calls have children of the same functions. -/
theorem rebuild_keeps (hs : s.Ordered) (hidle : s.Idle) (hc : s.Rooted P c)
    (hstate : Known D s state) :
    Keeps D s (rebuild c state) fun _ s' c' => s'.Rooted P c' ∧ c'.function = c.function ∧
      ((∀ v f, c.callee? v = some f → a.module.isDefined f = true) →
        ∀ v, a.module.isIndirectCall v = true → c'.callee? v = c.callee? v) := by
  rw [rebuild]
  refine (construct_keeps hs hidle hstate _).bind fun D₁ s₁ next h₁ hfiled => ?_
  have hcons := h₁.ordered.filed _ _ hfiled
  have hnext := h₁.ordered.rooted hP hfiled hc.self.function
  refine (foldlM_resolveCall_keeps hP _ h₁.ordered h₁.idle hnext).imp fun D₂ s₂ c' _ hc' => ?_
  obtain ⟨hrooted, hfun, hother, heach⟩ := hc'
  refine ⟨hrooted, hfun.trans hcons.function, fun hdef v hindirect => ?_⟩
  have hkeys := hc.self.keys
  cases hcallee : c.callee? v with
  | some f =>
    refine heach (nodup_resolvedCalls hkeys) (fun e he => ?_) (v, f)
      ((mem_resolvedCalls hkeys).mpr ⟨hindirect, hcallee⟩)
    exact hdef e.1 e.2 ((mem_resolvedCalls hkeys).mp he).2
  | none =>
    -- A context that was constructed has children at direct calls only.
    have hnone : next.callee? v = none := by
      rw [Context.callee?, Option.map_eq_none_iff, Option.eq_none_iff_forall_not_mem]
      intro child hchild
      obtain ⟨-, callee, hcalled, -⟩ := hcons.child v child hchild
      rw [Module.isIndirectCall_of_calledFunction? hcalled] at hindirect
      cases hindirect
    rw [← hnone]
    refine hother v fun hmem => ?_
    obtain ⟨e, he, rfl⟩ := List.mem_map.mp hmem
    rw [((mem_resolvedCalls hkeys).mp he).2] at hcallee
    cases hcallee

/-- What is learned about values changes nothing about the indirect calls. -/
theorem updateContext_keeps (hs : s.Ordered) (hidle : s.Idle) (hc : s.Rooted P c) (v : ValueId)
    (isNvm : Bool) :
    Keeps D s (updateContext c v isNvm) fun _ s' c' => s'.Rooted P c' ∧ c'.function = c.function ∧
      ((∀ v f, c.callee? v = some f → a.module.isDefined f = true) →
        ∀ v, a.module.isIndirectCall v = true → c'.callee? v = c.callee? v) := by
  rw [updateContext]
  refine (update_signs.keeps update_quiet hs hidle hc.known).bind fun D₁ s₁ state h₁ hstate => ?_
  have hc₁ := hc.mono h₁.toExtends
  split
  · exact .pure h₁.ordered h₁.idle ⟨hc₁, rfl, fun _ _ _ => rfl⟩
  · exact rebuild_keeps hP h₁.ordered h₁.idle hc₁ (.inl hstate.2)

/-- A step enters a rooted context, if the function of the instruction gone to has the
property. -/
theorem nextContext_keeps (hs : s.Ordered) (hidle : s.Idle) (hc : s.Rooted P c)
    (pc : ValueId) {next : ValueId}
    (hnext : ∀ i, a.module.instruction? next = some i → P i.function) :
    Keeps D s (nextContext c pc next) fun _ s' n => ∀ child, n = .enter child →
      s'.Rooted P child := by
  have hstay : ∀ n, (n = .same ∨ n = .leave) → Keeps D s (pure n : SessionM a NextContext)
      fun _ s' n => ∀ child, n = .enter child → s'.Rooted P child := by
    rintro n (rfl | rfl) <;> exact .pure hs hidle fun child hn => nomatch hn
  rw [nextContext]
  split
  · split
    · exact hstay _ (.inl rfl)
    · next i hi =>
      split
      · exact hstay _ (.inl rfl)
      · split
        · next child hchild =>
          refine .pure hs hidle fun w hw => ?_
          cases hw
          exact hc.child (Option.filter_eq_some_iff.mp hchild).1
        · refine (doCall_signs.keeps doCall_quiet hs hidle hc.known).bind
            fun D₁ s₁ state h₁ hstate => ?_
          refine (mayPoint_quiet.keeps h₁.ordered h₁.idle).bind fun D₂ s₂ r h₂ _ => ?_
          refine (construct_keeps h₂.ordered h₂.idle (h₂.of_known (.inl hstate.2)) r).bind
            fun D₃ s₃ child h₃ hfiled => .pure h₃.ordered h₃.idle fun w hw => ?_
          cases hw
          exact h₃.ordered.rooted hP hfiled (hnext i hi)
  · exact hstay _ (.inr rfl)
  · exact hstay _ (.inl rfl)

end Session

end PmemPaths.Nvm
