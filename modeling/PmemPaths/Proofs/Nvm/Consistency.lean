import PmemPaths.Proofs.Nvm.Nesting
import PmemPaths.Proofs.Nvm.Priorities

/-!
# Contexts that fit together

The weights of a context follow from its facts and its children, and its priorities from
its weights (`Context.Consistent`).

Contexts are kept by the session, by other contexts as their children, and by whoever
asked for them.  A set of contexts stands for all that were made so far.  They fit
together in a session (`Session.Sound`): each is consistent, its children were made too,
no two have one identity, and what is filed under a key is a context of that function
and those facts.

An operation makes more contexts and gives a result (`Session.Makes`).  What was made
and filed before stays as it is, and the marks of what is under construction are in the
end as they were (`Session.Advance`).
-/

namespace PmemPaths.Nvm

open PmemPaths.Ir

variable {a : Analysis} {β γ : Type}

/-! ## Children -/

namespace Context

variable {c c' child : Context} {call v : ValueId}

theorem find?_setChild (children : List (ValueId × Context)) :
    ((setChild call child children).find? (·.1 = v)).map (·.2) =
      if v = call then some child else (children.find? (·.1 = v)).map (·.2) := by
  induction children with
  | nil =>
    rw [setChild, List.find?_cons]
    by_cases hv : v = call
    · simp [hv]
    · simp [hv, Ne.symm hv]
  | cons e rest ih =>
    obtain ⟨w, c⟩ := e
    rw [setChild]
    split
    · next hw =>
      subst hw
      by_cases hv : v = w
      · simp [hv]
      · simp [hv, Ne.symm hv]
    · next hw =>
      rw [List.find?_cons, List.find?_cons]
      by_cases hv : w = v
      · subst hv
        simp [hw]
      · simpa [hv] using ih

/-- Setting a child changes that child only. -/
theorem child?_of_children_eq (h : c'.children = setChild call child c.children) (v : ValueId) :
    c'.child? v = if v = call then some child else c.child? v := by
  rw [child?, h, find?_setChild, child?]

end Context

/-! ## Consistency -/

/-- The weights of a context are those its facts and its children ask for. -/
structure Context.Weighed (a : Analysis) (c : Context) : Prop where
  /-- By itself an instruction weighs what it does under the facts. -/
  core : ∀ v ∈ a.module.instructionsOf c.function,
    c.coreWeight v = c.state.value.coreWeight a c.returnHasWeight v
  /-- An instruction without a child weighs nothing else. -/
  plain : ∀ v ∈ a.module.instructionsOf c.function, c.child? v = none →
    c.weights[v]? = some (c.coreWeight v)
  /-- A call with a child also weighs what the child starts with. -/
  call : ∀ v child, c.child? v = some child →
    c.weights[v]? = some (addCapped (c.coreWeight v) (child.rootPriority a.module))

/-- A context of a function that exists, with weights and priorities that follow from its
facts and its children. -/
structure Context.Consistent (a : Analysis) (c : Context) : Prop extends c.Weighed a where
  function : (a.module.function? c.function).isSome = true
  priorities : c.priorities = Nvm.priorities a.module c.function c.weights

/-- A consistent context tells the priority of every instruction of its function. -/
theorem Context.Consistent.mem_priorities {c : Context} (h : c.Consistent a) {v : ValueId}
    (hv : v ∈ a.module.instructionsOf c.function) : v ∈ c.priorities :=
  h.priorities ▸ Nvm.mem_priorities c.weights hv

namespace Context

variable {c child : Context} {call : ValueId} {n : Nat}

/-- The weights with those of another child. -/
theorem Weighed.setChild (h : c.Weighed a) {priorities : Table} {hasCoreWeight : Bool} :
    Weighed a { c with
      id := n
      priorities, hasCoreWeight
      weights := c.weights.insert call (addCapped (c.coreWeight call) (child.rootPriority a.module))
      children := setChild call child c.children } where
  core := h.core
  plain v hv hnone := by
    rw [child?_of_children_eq rfl] at hnone
    split at hnone
    · cases hnone
    · next hne =>
      rw [Table.getElem?_insert, if_neg hne]
      exact h.plain v hv hnone
  call v w hw := by
    rw [child?_of_children_eq rfl] at hw
    rw [Table.getElem?_insert]
    split at hw
    · next heq =>
      cases hw
      rw [if_pos heq, heq]
      rfl
    · next hne =>
      rw [if_neg hne]
      exact h.call v w hw

end Context

namespace Session

variable {K K' K'' : Set Context} {s s' s'' : Session a}

/-! ## Sound sessions -/

/-- The context was made, for this function and these facts. -/
structure MadeFor (K : Set Context) (f : FunctionId) (facts : Facts) (c : Context) : Prop where
  mem : c ∈ K
  function : c.function = f
  facts : c.state.value = facts

/-- The contexts made so far fit together. -/
structure Sound (K : Set Context) (s : Session a) : Prop where
  consistent : ∀ c ∈ K, c.Consistent a
  /-- Children were made too. -/
  child : ∀ c ∈ K, ∀ v child, c.child? v = some child → child ∈ K
  /-- Identities that are still to be given are nobody's. -/
  id_lt : ∀ c ∈ K, c.id < s.nextId
  /-- No two contexts have one identity. -/
  id_inj : ∀ c ∈ K, ∀ c' ∈ K, c.id = c'.id → c = c'
  /-- What is filed under a key has its function and its facts. -/
  filed : ∀ (key : ContextKey) (c : Context), s.contexts[key]? = some c →
    MadeFor K key.function key.facts c
  interned : ∀ (facts : Facts) (d : Descriptor), s.interned[facts]? = some d → d.value = facts

/-- In a new session nothing was made. -/
theorem Sound.empty : Sound ∅ ({} : Session a) where
  consistent _ hc := nomatch hc
  child _ hc := nomatch hc
  id_lt _ hc := nomatch hc
  id_inj _ hc := nomatch hc
  filed key c hc := by simp at hc
  interned facts d hd := by simp at hd

theorem MadeFor.mono {f : FunctionId} {facts : Facts} {c : Context} (h : MadeFor K f facts c)
    (hsub : K ⊆ K') : MadeFor K' f facts c := ⟨hsub h.mem, h.function, h.facts⟩

/-- The session goes on: more contexts are made, with new identities, and what was filed
stays.  Nothing else is under construction in the end. -/
structure Advance (K : Set Context) (s : Session a) (K' : Set Context) (s' : Session a) :
    Prop where
  sound : s'.Sound K'
  made : K ⊆ K'
  id_new : ∀ c ∈ K', c ∈ K ∨ s.nextId ≤ c.id
  nextId_le : s.nextId ≤ s'.nextId
  marks : ∀ key, s'.inProgress.contains key = s.inProgress.contains key
  filed : ∀ (key : ContextKey) (c : Context), s.contexts[key]? = some c → s'.contexts[key]? = some c

theorem Advance.refl (h : s.Sound K) : Advance K s K s :=
  ⟨h, subset_rfl, fun _ hc => .inl hc, Nat.le_refl _, fun _ => rfl, fun _ _ hc => hc⟩

theorem Advance.trans (h : Advance K s K' s') (h' : Advance K' s' K'' s'') :
    Advance K s K'' s'' where
  sound := h'.sound
  made := h.made.trans h'.made
  id_new c hc := by
    rcases h'.id_new c hc with hc | hc
    · exact h.id_new c hc
    · exact .inr (Nat.le_trans h.nextId_le hc)
  nextId_le := Nat.le_trans h.nextId_le h'.nextId_le
  marks key := (h'.marks key).trans (h.marks key)
  filed key c hc := h'.filed key c (h.filed key c hc)

/-- A context of one's own is nobody else's. -/
def Reserved (K : Set Context) (s : Session a) (id : Nat) : Prop :=
  id < s.nextId ∧ ∀ c ∈ K, c.id ≠ id

theorem Reserved.advance {id : Nat} (h : Reserved K s id) (ha : Advance K s K' s') :
    Reserved K' s' id := by
  refine ⟨Nat.lt_of_lt_of_le h.1 ha.nextId_le, fun c hc => ?_⟩
  rcases ha.id_new c hc with hc | hc
  · exact h.2 c hc
  · exact Nat.ne_of_gt (Nat.lt_of_lt_of_le h.1 hc)

/-- One more context, with an identity that was reserved for it. -/
theorem Sound.add {c : Context} (h : s.Sound K) (hc : c.Consistent a)
    (hchild : ∀ v child, c.child? v = some child → child ∈ K) (hid : Reserved K s c.id) :
    s.Sound (K ∪ {c}) where
  consistent c' hc' := by
    rcases hc' with hc' | rfl
    · exact h.consistent c' hc'
    · exact hc
  child c' hc' v child hv := by
    rcases hc' with hc' | rfl
    · exact .inl (h.child c' hc' v child hv)
    · exact .inl (hchild v child hv)
  id_lt c' hc' := by
    rcases hc' with hc' | rfl
    · exact h.id_lt c' hc'
    · exact hid.1
  id_inj c₁ h₁ c₂ h₂ heq := by
    rcases h₁ with h₁ | rfl <;> rcases h₂ with h₂ | rfl
    · exact h.id_inj c₁ h₁ c₂ h₂ heq
    · exact absurd heq (hid.2 c₁ h₁)
    · exact absurd heq.symm (hid.2 c₂ h₂)
    · rfl
  filed key c' hc' := (h.filed key c' hc').mono Set.subset_union_left
  interned := h.interned

/-! ## What operations make -/

/-- The operation makes contexts, and its result has a property in the session it leaves
behind. -/
def Makes (K : Set Context) (s : Session a) (act : SessionM a β)
    (Q : Set Context → Session a → β → Prop) : Prop :=
  ∃ K', Advance K s K' (act s).2 ∧ Q K' (act s).2 (act s).1

variable {P : Set Context → Session a → β → Prop} {Q : Set Context → Session a → γ → Prop}
  {act : SessionM a β}

theorem Makes.pure {b : β} (h : s.Sound K) (hb : P K s b) : Makes K s (Pure.pure b) P :=
  ⟨K, .refl h, hb⟩

theorem Makes.bind {next : β → SessionM a γ} (h : Makes K s act P)
    (hnext : ∀ K' s' b, Advance K s K' s' → P K' s' b → Makes K' s' (next b) Q) :
    Makes K s (act >>= next) Q := by
  obtain ⟨K', ha, hb⟩ := h
  obtain ⟨K'', ha', hc⟩ := hnext K' _ _ ha hb
  exact ⟨K'', ha.trans ha', hc⟩

theorem Makes.imp {R : Set Context → Session a → β → Prop} (h : Makes K s act P)
    (himp : ∀ K' s' b, Advance K s K' s' → P K' s' b → R K' s' b) : Makes K s act R := by
  obtain ⟨K', ha, hb⟩ := h
  exact ⟨K', ha, himp K' _ _ ha hb⟩

/-- The session goes on when nothing changes but the memo, identities and counts. -/
theorem Advance.of_eq (h : s.Sound K) (hcontexts : s'.contexts = s.contexts)
    (hinterned : s'.interned = s.interned) (hnext : s.nextId ≤ s'.nextId)
    (hmarks : s'.inProgress = s.inProgress) : Advance K s K s' where
  sound :=
    { consistent := h.consistent
      child := h.child
      id_lt := fun c hc => Nat.lt_of_lt_of_le (h.id_lt c hc) hnext
      id_inj := h.id_inj
      filed := hcontexts ▸ h.filed
      interned := hinterned ▸ h.interned }
  made := subset_rfl
  id_new c hc := .inl hc
  nextId_le := hnext
  marks key := by rw [hmarks]
  filed key c hc := hcontexts ▸ hc

theorem Advance.of_aside (h : s.Sound K) (hs : Aside s s') (hmarks : s'.inProgress = s.inProgress) :
    Advance K s K s' := .of_eq h hs.contexts hs.interned hs.nextId_le hmarks

theorem Quiet.makes {R : β → Prop} (h : Quiet act R) (hs : s.Sound K) :
    Makes K s act fun _ _ b => R b :=
  ⟨K, .of_aside hs (h.aside rfl) (h.inProgress rfl), (h s).2⟩

theorem intern_advance {d entry : Descriptor} (h : s.Sound K) (hrun : intern d s = (entry, s')) :
    Advance K s K s' := by
  have hinterns := Interns.intern h.interned hrun
  rcases intern_cases hrun with ⟨-, rfl⟩ | ⟨-, -, rfl⟩
  · exact .refl h
  · exact { Advance.refl h with sound := { h with interned := hinterns } }

theorem intern_makes (h : s.Sound K) (d : Descriptor) :
    Makes K s (intern d) fun _ _ d' => d'.value = d.value :=
  ⟨K, intern_advance h rfl, Interns.value_eq h.interned rfl⟩

/-- A new identity is nobody's. -/
theorem fresh_makes (h : s.Sound K) :
    Makes K s fresh fun K' s' id => s.nextId ≤ id ∧ Reserved K' s' id :=
  ⟨K, .of_eq h rfl rfl (Nat.le_succ _) rfl, Nat.le_refl _, Nat.lt_succ_self _,
    fun c hc => Nat.ne_of_lt (h.id_lt c hc)⟩

/-- A context made on the way. -/
theorem Advance.add {c : Context} (h : Advance K s K' s') (hc : c.Consistent a)
    (hchild : ∀ v child, c.child? v = some child → child ∈ K') (hid : Reserved K' s' c.id)
    (hnew : s.nextId ≤ c.id) : Advance K s (K' ∪ {c}) s' where
  sound := h.sound.add hc hchild hid
  made := h.made.trans Set.subset_union_left
  id_new c' hc' := by
    rcases hc' with hc' | rfl
    · exact h.id_new c' hc'
    · exact .inr hnew
  nextId_le := h.nextId_le
  marks := h.marks
  filed := h.filed

/-- Filing a context made on the way gives it, or the one that is filed already. -/
theorem Advance.insertContext {c c' : Context} {s'' : Session a} (h : Advance K s K' s')
    (hc : c.Consistent a) (hchild : ∀ v child, c.child? v = some child → child ∈ K')
    (hid : Reserved K' s' c.id) (hnew : s.nextId ≤ c.id) (hrun : insert c s' = (c', s'')) :
    ∃ K'', Advance K s K'' s'' ∧ MadeFor K'' c.function c.state.value c' := by
  rcases insert_cases hrun with ⟨hknown, rfl⟩ | ⟨hknown, rfl, rfl⟩
  · exact ⟨K', h, h.sound.filed _ _ hknown⟩
  · have hadd := h.add hc hchild hid hnew
    have hsound : Sound (K' ∪ {c'})
        { s' with contexts := s'.contexts.insert ⟨c'.function, c'.state.value⟩ c' } := by
      refine { hadd.sound with filed := fun key c hc => ?_ }
      rw [Std.HashMap.getElem?_insert] at hc
      split at hc
      · next hkey =>
        cases hc
        rw [← beq_iff_eq.mp hkey]
        exact ⟨.inr rfl, rfl, rfl⟩
      · exact hadd.sound.filed key c hc
    refine ⟨K' ∪ {c'}, { hadd with sound := hsound, filed := fun key c hc => ?_ },
      ⟨.inr rfl, rfl, rfl⟩⟩
    rw [Std.HashMap.getElem?_insert]
    split
    · next hkey =>
      have hfiled := h.filed key c hc
      rw [← beq_iff_eq.mp hkey, hknown] at hfiled
      cases hfiled
    · exact h.filed key c hc

/-- A context marked as under construction, and the mark taken away after it. -/
theorem Advance.marked {key : ContextKey} (hkey : s.inProgress.contains key = false)
    (h : Advance K { s with inProgress := s.inProgress.insert key } K' s') :
    Advance K s K' { s' with inProgress := s'.inProgress.erase key } where
  sound := { h.sound with }
  made := h.made
  id_new := h.id_new
  nextId_le := h.nextId_le
  marks k := by
    rw [Std.HashSet.contains_erase, h.marks, Std.HashSet.contains_insert]
    by_cases hk : key = k
    · rw [← hk, hkey, beq_self_eq_true]
      rfl
    · rw [beq_eq_false_iff_ne.mpr hk]
      rfl
  filed := h.filed

end Session

end PmemPaths.Nvm
