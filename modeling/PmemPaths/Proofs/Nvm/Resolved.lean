import PmemPaths.Proofs.Nvm.CallStack
import PmemPaths.Proofs.Nvm.InSync
import PmemPaths.Proofs.Nvm.Keeping

/-!
# Indirect calls keep what they were found to call

A thread learns what an indirect call calls while the function of the call is active.  Its
context is replaced over and over: by what else is learned, when a callee returns, and when
the context above it is replaced.  The context that other facts lead to knows nothing of
indirect calls when it is constructed.

In a module whose instructions all name the function that lists them, each frame knows of
each indirect call what it was told last (`DynamicHeuristic.target?`): the callee with a
body that was learned last, or the function entered from there if the context was replaced
from above since (`Run.keepsResolved`).  So a call that has a child keeps having one as long
as the frame is on the stack.

A frame is named by how many frames are below it.  It stays itself as long as the stack is
deep enough.
-/

namespace PmemPaths.Ir.Module

/-- Where all instructions name the function that lists them, they name functions with a
body. -/
theorem NamesFunctions.isDefined {m : Module} {v : ValueId} {i : Instruction}
    (hn : m.NamesFunctions) (hm : m.Built) (hi : m.instruction? v = some i) :
    m.isDefined i.function = true := by
  obtain ⟨f, hdef, hmem⟩ := hm.linked.mem_instructionsOf hi
  exact hn.function_eq hmem hi ▸ hdef

end PmemPaths.Ir.Module

namespace PmemPaths.Nvm

open PmemPaths.Ir

variable {a : Analysis} {m : Module}

/-! ## Frames and what they know -/

namespace DynamicHeuristic

/-- The context of the frame with so many frames below it. -/
def frame? (h : DynamicHeuristic) (j : Nat) : Option Context :=
  (h.top :: h.callers.map (·.context)).reverse[j]?

/-- The call that the frame with so many frames below it waits for. -/
def waitsFor? (h : DynamicHeuristic) (j : Nat) : Option ValueId :=
  (h.callers.map (·.call)).reverse[j]?

/-- The function that the frame's context has a child of at a call. -/
def callee? (h : DynamicHeuristic) (j : Nat) (v : ValueId) : Option FunctionId :=
  (h.frame? j).bind (·.callee? v)

end DynamicHeuristic

/-- The callee with a body that an event tells of a call. -/
def Event.resolved? (m : Module) : Event → ValueId → Option FunctionId
  | .learnCallee pc callee, v => if v = pc ∧ m.isDefined callee = true then some callee else none
  | .learn _ _, _ | .step _ _, _ => none

namespace DynamicHeuristic

/-- What the frame knows of a call after an event.  A waiting frame whose context was
replaced knows the function of the frame above, and the active frame hears what is
learned. -/
def heard (m : Module) (h : DynamicHeuristic) (e : Event) (h' : DynamicHeuristic) (j : Nat)
    (v : ValueId) (known : Option FunctionId) : Option FunctionId :=
  if h'.waitsFor? j = some v ∧ (h'.frame? j).map (·.id) ≠ (h.frame? j).map (·.id) then
    (h'.frame? (j + 1)).map (·.function)
  else if j + 1 = h.depth then (e.resolved? m v).or known
  else known

/-- What the frame knows of a call after the events that led there, the last one first, each
with the heuristic before it.  It starts with what its context knows when it is entered. -/
def target? (m : Module) :
    DynamicHeuristic → List (DynamicHeuristic × Event) → Nat → ValueId → Option FunctionId
  | h, [], j, v => h.callee? j v
  | h', (h, e) :: past, j, v =>
    if j < h.depth then heard m h e h' j v (target? m h past j v) else h'.callee? j v
termination_by structural _ past => past

/-- The frame has been on the stack since then. -/
inductive Since (j : Nat) (h₀ : DynamicHeuristic) :
    DynamicHeuristic → List (DynamicHeuristic × Event) → Prop
  | now {past : List (DynamicHeuristic × Event)} : j < h₀.depth → Since j h₀ h₀ past
  | later {h h' : DynamicHeuristic} {e : Event} {past : List (DynamicHeuristic × Event)} :
      Since j h₀ h past → j < h'.depth → Since j h₀ h' ((h, e) :: past)

variable {h h' h₀ : DynamicHeuristic} {past : List (DynamicHeuristic × Event)} {j : Nat}

theorem Since.lt (h : Since j h₀ h' past) : j < h'.depth := by
  cases h <;> assumption

theorem getElem?_reverse_cons {α : Type} (x : α) (xs : List α) (j : Nat) :
    (x :: xs).reverse[j]? = if j = xs.length then some x else xs.reverse[j]? := by
  rw [List.reverse_cons, List.getElem?_append, List.length_reverse]
  rcases Nat.lt_trichotomy j xs.length with hj | rfl | hj
  · rw [if_pos hj, if_neg hj.ne]
  · simp
  · rw [if_neg (Nat.lt_asymm hj), if_neg hj.ne', List.getElem?_eq_none (by simp; omega),
      List.getElem?_eq_none (by simp; omega)]

theorem frame?_top (h : DynamicHeuristic) : h.frame? h.callers.length = some h.top := by
  rw [frame?, getElem?_reverse_cons, if_pos (List.length_map _).symm]

/-- The frame that waits at a call, seen from the frame above. -/
theorem frame?_of_ne (hj : j ≠ h.callers.length) :
    h.frame? j = (h.callers.map (·.context)).reverse[j]? := by
  rw [frame?, getElem?_reverse_cons, if_neg (by rwa [List.length_map])]

theorem isSome_frame? (hj : j < h.depth) : (h.frame? j).isSome = true := by
  rw [frame?, List.getElem?_eq_getElem (by simpa [depth] using hj)]
  rfl

theorem waitsFor?_eq_none (hj : h.callers.length ≤ j) : h.waitsFor? j = none := by
  rw [waitsFor?, List.getElem?_eq_none (by simpa using hj)]

/-- A frame that waits for nothing knows what it knew and, if it was active, what is
learned. -/
theorem heard_of_waitsFor?_eq_none {e : Event} {v : ValueId} {known : Option FunctionId}
    (hwaits : h'.waitsFor? j = none) : heard m h e h' j v known =
      if j + 1 = h.depth then (e.resolved? m v).or known else known := by
  refine if_neg fun hraised => ?_
  rw [hwaits] at hraised
  cases hraised.1

/-- A frame that stays active knows what it was told last. -/
theorem target?_of_active {e : Event} {v : ValueId} (hj : j + 1 = h.depth)
    (hj' : j + 1 = h'.depth) :
    target? m h' ((h, e) :: past) j v = (e.resolved? m v).or (target? m h past j v) := by
  have hwaits : h'.waitsFor? j = none := waitsFor?_eq_none (Nat.succ.inj hj').ge
  rw [target?, if_pos (hj ▸ Nat.lt_succ_self j), heard_of_waitsFor?_eq_none hwaits, if_pos hj]

/-- Nothing that is known is forgotten. -/
theorem isSome_heard {e : Event} {v : ValueId} {known : Option FunctionId}
    (hknown : known.isSome = true) : (heard m h e h' j v known).isSome = true := by
  rw [heard]
  split
  · next hraised =>
    have hj : j < h'.callers.length := by
      by_contra hnot
      rw [waitsFor?_eq_none (Nat.le_of_not_lt hnot)] at hraised
      cases hraised.1
    rw [Option.isSome_map]
    exact isSome_frame? (Nat.succ_lt_succ hj)
  · split
    · rw [Option.isSome_or, hknown, Bool.or_true]
    · exact hknown

end DynamicHeuristic

/-! ## What events do to frames -/

/-- Waiting contexts after another context was installed above them: each is as it was, or
another one in which the call has a child of the function above. -/
inductive Raised : FunctionId → List Suspended → List Suspended → Prop
  | nil {f : FunctionId} : Raised f [] []
  | same {f : FunctionId} {w : Suspended} {ws ws' : List Suspended} :
      Raised w.context.function ws ws' → Raised f (w :: ws) (w :: ws')
  | replaced {f : FunctionId} {w : Suspended} {c : Context} {ws ws' : List Suspended} :
      c.id ≠ w.context.id →
      (∀ v, c.callee? v = if v = w.call then some f else w.context.callee? v) →
      Raised c.function ws ws' → Raised f (w :: ws) ({ w with context := c } :: ws')

namespace Raised

variable {f : FunctionId} {ws ws' : List Suspended}

theorem refl (f : FunctionId) (ws : List Suspended) : Raised f ws ws := by
  induction ws generalizing f with
  | nil => exact .nil
  | cons w ws ih => exact .same (ih _)

theorem length_eq (h : Raised f ws ws') : ws'.length = ws.length := by
  induction h with
  | nil => rfl
  | same _ ih | replaced _ _ _ ih => rw [List.length_cons, List.length_cons, ih]

/-- A waiting context is as it was, or it has a child of the function of the frame above. -/
def At (top : Context) (ws ws' : List Suspended) (j : Nat) : Prop :=
  ∃ c c', (ws.map (·.context)).reverse[j]? = some c ∧
    (ws'.map (·.context)).reverse[j]? = some c' ∧
    (c' = c ∨ c'.id ≠ c.id ∧ ∃ call above, (ws'.map (·.call)).reverse[j]? = some call ∧
      (top :: ws'.map (·.context)).reverse[j + 1]? = some above ∧
      ∀ v, c'.callee? v = if v = call then some above.function else c.callee? v)

theorem getElem?_reverse_map_cons {α : Type} (g : Suspended → α) (w : Suspended)
    (ws : List Suspended) (j : Nat) : ((w :: ws).map g).reverse[j]? =
      if j = ws.length then some (g w) else (ws.map g).reverse[j]? := by
  rw [List.map_cons, DynamicHeuristic.getElem?_reverse_cons, List.length_map]

/-- Frames further below do not see what is on top. -/
theorem At.cons {top : Context} {w w' : Suspended} {j : Nat} (h : At w'.context ws ws' j)
    (hlength : ws'.length = ws.length) (hj : j < ws.length) :
    At top (w :: ws) (w' :: ws') j := by
  obtain ⟨c, c', hc, hc', hcases⟩ := h
  refine ⟨c, c', ?_, ?_, hcases.imp_right fun hraised => ?_⟩
  · rw [getElem?_reverse_map_cons, if_neg hj.ne, hc]
  · rw [getElem?_reverse_map_cons, if_neg (hlength ▸ hj.ne), hc']
  · obtain ⟨hid, call, above, hcall, habove, hcallee⟩ := hraised
    refine ⟨hid, call, above, ?_, ?_, hcallee⟩
    · rw [getElem?_reverse_map_cons, if_neg (hlength ▸ hj.ne), hcall]
    · rw [DynamicHeuristic.getElem?_reverse_cons, if_neg, List.map_cons, habove]
      rw [List.length_map, List.length_cons, hlength]
      exact fun heq => hj.ne (Nat.succ.inj heq)

theorem frame {top : Context} (h : Raised f ws ws') (htop : top.function = f) {j : Nat}
    (hj : j < ws.length) : At top ws ws' j := by
  induction h generalizing top with
  | nil => cases hj
  | @same f w ws ws' hrest ih =>
    rcases Nat.lt_or_eq_of_le (Nat.le_of_lt_succ hj) with hlt | rfl
    · exact (ih rfl hlt).cons hrest.length_eq hlt
    · refine ⟨w.context, w.context, ?_, ?_, .inl rfl⟩
      · rw [getElem?_reverse_map_cons, if_pos rfl]
      · rw [getElem?_reverse_map_cons, if_pos hrest.length_eq.symm]
  | @replaced f w c ws ws' hid hcallee hrest ih =>
    rcases Nat.lt_or_eq_of_le (Nat.le_of_lt_succ hj) with hlt | rfl
    · exact (ih rfl hlt).cons hrest.length_eq hlt
    · refine ⟨w.context, c, ?_, ?_, .inr ⟨hid, w.call, top, ?_, ?_, htop.symm ▸ hcallee⟩⟩
      · rw [getElem?_reverse_map_cons, if_pos rfl]
      · rw [getElem?_reverse_map_cons, if_pos hrest.length_eq.symm]
      · rw [getElem?_reverse_map_cons, if_pos hrest.length_eq.symm]
      · rw [DynamicHeuristic.getElem?_reverse_cons, if_pos]
        rw [List.length_map, List.length_cons, hrest.length_eq]

end Raised

/-- What an event does to the frames, as far as indirect calls are concerned. -/
inductive Moves (m : Module) (h : DynamicHeuristic) : Event → DynamicHeuristic → Prop
  | stay {e : Event} {h' : DynamicHeuristic} :
      (∀ v, m.isIndirectCall v = true →
        h'.top.callee? v = (e.resolved? m v).or (h.top.callee? v)) →
      Raised h'.top.function h.callers h'.callers → Moves m h e h'
  | enter {pc next : ValueId} {h' : DynamicHeuristic} :
      h'.callers = ⟨h.top, pc⟩ :: h.callers → Moves m h (.step pc next) h'
  | leave {pc next : ValueId} {w : Suspended} {rest : List Suspended} {h' : DynamicHeuristic} :
      h.callers = w :: rest →
      (∀ v, m.isIndirectCall v = true → h'.top.callee? v = w.context.callee? v) →
      Raised h'.top.function rest h'.callers → Moves m h (.step pc next) h'

namespace DynamicHeuristic

variable {h h' : DynamicHeuristic} {e : Event} {j : Nat} {v : ValueId}
  {past : List (DynamicHeuristic × Event)}

/-- Frames that wait below the active one know what they knew, or the function above. -/
theorem heard_of_raised {f : FunctionId} {ws : List Suspended} (hraised : Raised f ws h'.callers)
    (htop : h'.top.function = f)
    (hframes : ∀ i < ws.length, h.frame? i = (ws.map (·.context)).reverse[i]?)
    (hj : j < ws.length) (hdepth : j + 1 ≠ h.depth) :
    h'.callee? j v = heard m h e h' j v (h.callee? j v) := by
  obtain ⟨c, c', hc, hc', hcases⟩ := hraised.frame htop hj
  have hlength := hraised.length_eq
  rw [← hframes j hj] at hc
  rw [← frame?_of_ne (by omega)] at hc'
  rw [heard, callee?, callee?, hc, hc', if_neg hdepth]
  rcases hcases with rfl | ⟨hid, call, above, hcall, habove, hcallee⟩
  · rw [if_neg fun h => h.2 rfl]
  · change h'.waitsFor? j = some call at hcall
    change h'.frame? (j + 1) = some above at habove
    rw [hcall, habove, Option.bind_some, Option.bind_some, hcallee]
    by_cases hv : v = call
    · rw [if_pos hv, if_pos ⟨congrArg some hv.symm, fun heq => hid (Option.some.inj heq)⟩]
      rfl
    · rw [if_neg hv, if_neg fun h => hv (Option.some.inj h.1).symm]

/-- After an event each frame knows what it heard. -/
theorem callee?_eq_heard (hmoves : Moves m h e h') (hj : j < h.depth) (hj' : j < h'.depth)
    (hv : m.isIndirectCall v = true) : h'.callee? j v = heard m h e h' j v (h.callee? j v) := by
  cases hmoves with
  | stay htop hraised =>
    have hlength := hraised.length_eq
    rcases Nat.lt_or_eq_of_le (Nat.le_of_lt_succ hj) with hlt | rfl
    · exact heard_of_raised hraised rfl (fun i hi => frame?_of_ne hi.ne) hlt
        fun heq => hlt.ne (Nat.succ.inj heq)
    · have hdepth : h.callers.length + 1 = h.depth := rfl
      rw [heard_of_waitsFor?_eq_none (waitsFor?_eq_none hlength.le), if_pos hdepth, callee?,
        callee?, frame?_top, ← hlength, frame?_top, Option.bind_some, Option.bind_some, htop v hv]
  | enter hcallers =>
    -- No frame changes, and nothing is learned.
    have hframe : h'.frame? j = h.frame? j := by
      have hne : j ≠ h'.callers.length := by rw [hcallers]; exact hj.ne
      rw [frame?_of_ne hne, hcallers]
      rfl
    rw [heard, callee?, callee?, hframe, if_neg fun h => h.2 rfl, Event.resolved?, Option.none_or,
      ite_self]
  | @leave pc next w rest h' hcallers htop hraised =>
    have hlength := hraised.length_eq
    have hframes : ∀ i < rest.length, h.frame? i = (rest.map (·.context)).reverse[i]? := by
      intro i hi
      rw [frame?_of_ne (by rw [hcallers, List.length_cons]; omega), hcallers, List.map_cons,
        getElem?_reverse_cons, List.length_map, if_neg hi.ne]
    have hdepth : h.depth = rest.length + 2 := by rw [depth, hcallers, List.length_cons]
    rcases Nat.lt_or_eq_of_le (Nat.le_of_lt_succ hj') with hlt | rfl
    · exact heard_of_raised hraised rfl hframes (by omega) (by omega)
    · have hframe : h.frame? h'.callers.length = some w.context := by
        rw [hlength, frame?_of_ne (by rw [hcallers, List.length_cons]; omega), hcallers,
          List.map_cons, getElem?_reverse_cons, List.length_map, if_pos rfl]
      rw [heard_of_waitsFor?_eq_none (waitsFor?_eq_none (Nat.le_refl _)), if_neg (by omega),
        callee?, callee?, hframe, frame?_top, Option.bind_some, Option.bind_some, htop v hv]

/-- The frames know of their indirect calls what the past tells, and nothing they ever knew
is forgotten. -/
def Remembers (m : Module) (h : DynamicHeuristic) (past : List (DynamicHeuristic × Event)) :
    Prop :=
  ∀ j < h.depth, ∀ v, m.isIndirectCall v = true → h.callee? j v = target? m h past j v ∧
    ∀ h₀, Since j h₀ h past → (h₀.callee? j v).isSome = true → (h.callee? j v).isSome = true

theorem Remembers.start : Remembers m h [] := by
  refine fun j _ v _ => ⟨by rw [target?], fun h₀ hsince hsome => ?_⟩
  cases hsince
  exact hsome

theorem Remembers.event (hr : Remembers m h past) (hmoves : Moves m h e h') :
    Remembers m h' ((h, e) :: past) := by
  intro j hj' v hv
  by_cases hj : j < h.depth
  · obtain ⟨heq, hkept⟩ := hr j hj v hv
    have hheard := callee?_eq_heard hmoves hj hj' hv
    refine ⟨by rw [target?, if_pos hj, ← heq, hheard], fun h₀ hsince hsome => ?_⟩
    cases hsince with
    | now => exact hsome
    | later hsince _ =>
      rw [hheard]
      exact isSome_heard (hkept h₀ hsince hsome)
  · refine ⟨by rw [target?, if_neg hj], fun h₀ hsince hsome => ?_⟩
    cases hsince with
    | now => exact hsome
    | later hsince _ => exact absurd hsince.lt hj

end DynamicHeuristic

/-! ## Events in a session -/

namespace Session

variable {K : Set Context} {D : Set Descriptor} {s s' : Session a} {c child : Context}
  {h h' : DynamicHeuristic}

/-- All contexts on the stack and below them are of functions with bodies. -/
structure Stacked (s : Session a) (h : DynamicHeuristic) : Prop where
  top : s.Rooted (a.module.isDefined · = true) h.top
  callers : ∀ w ∈ h.callers, s.Rooted (a.module.isDefined · = true) w.context

theorem Stacked.mono (hh : s.Stacked h) (he : Extends s s') : s'.Stacked h :=
  ⟨hh.top.mono he, fun w hw => (hh.callers w hw).mono he⟩

/-- The functions that a context on the stack has children of have bodies. -/
theorem Rooted.isDefined (hc : s.Rooted (a.module.isDefined · = true) c) (v : ValueId)
    (f : FunctionId) (hf : c.callee? v = some f) : a.module.isDefined f = true := by
  obtain ⟨child, hchild, rfl⟩ := Option.map_eq_some_iff.mp hf
  exact (hc.child hchild).self.function

theorem propagate_keeps (callers : List Suspended) (hs : s.Ordered) (hidle : s.Idle)
    (hchild : s.Rooted (a.module.isDefined · = true) child)
    (hcallers : ∀ w ∈ callers, s.Rooted (a.module.isDefined · = true) w.context)
    (hids : ∀ w ∈ callers, w.context.id < s.nextId) :
    Keeps D s (propagate child callers) fun _ s' callers' =>
      (∀ w ∈ callers', s'.Rooted (a.module.isDefined · = true) w.context) ∧
        Raised child.function callers callers' := by
  induction callers generalizing child s D with
  | nil =>
    rw [propagate]
    exact .pure hs hidle ⟨hcallers, .nil⟩
  | cons w rest ih =>
    obtain ⟨hw, hrest⟩ := List.forall_mem_cons.mp hcallers
    obtain ⟨hid, hids⟩ := List.forall_mem_cons.mp hids
    rw [propagate]
    split
    · exact .pure hs hidle ⟨hcallers, .refl _ _⟩
    · refine (withChild_keeps hs hidle hw hchild w.call).bind fun D₁ s₁ updated h₁ hupdated => ?_
      obtain ⟨hrooted, rfl⟩ := hupdated
      have hrest₁ : ∀ w ∈ rest, s₁.Rooted (a.module.isDefined · = true) w.context :=
        fun w' hw' => (hrest w' hw').mono h₁.toExtends
      have hnew : (revise a.module w.context s.nextId w.call child).id ≠ w.context.id := hid.ne'
      dsimp only
      split
      · exact .pure h₁.ordered h₁.idle ⟨List.forall_mem_cons.mpr ⟨hrooted, hrest₁⟩,
          .replaced hnew Context.callee?_revise (.refl _ _)⟩
      · refine (ih h₁.ordered h₁.idle hrooted hrest₁
          fun w' hw' => (hids w' hw').trans_le h₁.nextId_le).bind fun D₂ s₂ rest' h₂ hrest' => ?_
        exact .pure h₂.ordered h₂.idle
          ⟨List.forall_mem_cons.mpr ⟨hrooted.mono h₂.toExtends, hrest'.1⟩,
            .replaced hnew Context.callee?_revise hrest'.2⟩

theorem replaceTop_keeps (hs : s.Ordered) (hidle : s.Idle)
    (hc : s.Rooted (a.module.isDefined · = true) c)
    (hcallers : ∀ w ∈ h.callers, s.Rooted (a.module.isDefined · = true) w.context)
    (hids : ∀ w ∈ h.callers, w.context.id < s.nextId) :
    Keeps D s (replaceTop h c) fun _ s' h' => s'.Stacked h' ∧ h'.top = c ∧
      Raised c.function h.callers h'.callers := by
  rw [replaceTop]
  refine (propagate_keeps h.callers hs hidle hc hcallers hids).bind
    fun D₁ s₁ callers h₁ hcallers' => .pure h₁.ordered h₁.idle ?_
  exact ⟨⟨hc.mono h₁.toExtends, hcallers'.1⟩, rfl, hcallers'.2⟩

/-- A context takes the place of the active one, or is the active one itself. -/
theorem adopt_keeps (hs : s.Ordered) (hidle : s.Idle) (hsound : s.Sound K) (hh : s.Stacked h)
    (hwithin : h.Within K) (hc : s.Rooted (a.module.isDefined · = true) c) (hmem : c ∈ K) :
    Keeps D s (adopt h c) fun _ s' h' => s'.Stacked h' ∧ h'.top = c ∧
      Raised c.function h.callers h'.callers := by
  rw [adopt]
  split
  · next hid =>
    obtain rfl := hsound.id_inj _ hmem _ hwithin.top hid
    exact .pure hs hidle ⟨hh, rfl, .refl _ _⟩
  · exact replaceTop_keeps hs hidle hc hh.callers
      fun w hw => hsound.id_lt _ (hwithin.callers w hw)

variable (hm : a.module.Built)

include hm

theorem learn_keeps (hs : s.Ordered) (hidle : s.Idle) (hsound : s.Sound K) (hh : s.Stacked h)
    (hwithin : h.Within K) (pc : ValueId) (isNvm : Bool) :
    Keeps D s (learn h pc isNvm) fun _ s' h' =>
      s'.Stacked h' ∧ Moves a.module h (.learn pc isNvm) h' := by
  rw [learn]
  cases DynamicHeuristic.eventValue? a.module pc with
  | none => exact .pure hs hidle ⟨hh, .stay (fun _ _ => rfl) (.refl _ _)⟩
  | some v =>
    refine ((updateContext_keeps (fun _ hf => hf) hs hidle hh.top v isNvm).and_makes
      (updateContext_makes hm hsound hidle hwithin.top v isNvm)).bind fun D₁ s₁ c h₁ hc => ?_
    obtain ⟨⟨hrooted, -, hcallees⟩, K₁, ha, hmade⟩ := hc
    refine (adopt_keeps h₁.ordered h₁.idle ha.sound (hh.mono h₁.toExtends)
      (hwithin.mono ha.made) hrooted hmade.mem).imp fun D₂ s₂ h' _ hh' => ?_
    obtain ⟨hstacked, rfl, hraised⟩ := hh'
    exact ⟨hstacked, .stay (hcallees hh.top.isDefined) hraised⟩

theorem learnCallee_keeps (hs : s.Ordered) (hidle : s.Idle) (hsound : s.Sound K)
    (hh : s.Stacked h) (hwithin : h.Within K) (pc : ValueId) (callee : FunctionId) :
    Keeps D s (learnCallee h pc callee) fun _ s' h' =>
      s'.Stacked h' ∧ Moves a.module h (.learnCallee pc callee) h' := by
  rw [learnCallee]
  refine ((resolveCall_keeps (fun _ hf => hf) hs hidle hh.top pc callee).and_makes
    (resolveCall_makes hm hsound hidle hwithin.top pc callee)).bind fun D₁ s₁ c h₁ hc => ?_
  obtain ⟨⟨hrooted, -, hcallees⟩, K₁, ha, hmade, -⟩ := hc
  refine (adopt_keeps h₁.ordered h₁.idle ha.sound (hh.mono h₁.toExtends)
    (hwithin.mono ha.made) hrooted hmade.mem).imp fun D₂ s₂ h' _ hh' => ?_
  obtain ⟨hstacked, rfl, hraised⟩ := hh'
  refine ⟨hstacked, .stay (fun v _ => ?_) hraised⟩
  rw [hcallees, Event.resolved?]
  split <;> rfl

omit hm

theorem leave_keeps (hs : s.Ordered) (hidle : s.Idle) (hh : s.Stacked h)
    (hids : ∀ w ∈ h.callers, w.context.id < s.nextId) (pc next : ValueId) :
    Keeps D s (leave h pc) fun _ s' h' =>
      s'.Stacked h' ∧ Moves a.module h (.step pc next) h' := by
  rw [leave]
  cases hcallers : h.callers with
  | nil => exact .pure hs hidle ⟨hh, .stay (fun _ _ => rfl) (.refl _ _)⟩
  | cons w rest =>
    obtain ⟨hw, hrest⟩ := List.forall_mem_cons.mp (hcallers ▸ hh.callers)
    obtain ⟨-, hids⟩ := List.forall_mem_cons.mp (hcallers ▸ hids)
    dsimp only
    refine (doReturn_signs.keeps doReturn_quiet hs hidle hw.known).bind
      fun D₁ s₁ state h₁ hstate => ?_
    have hw₁ := hw.mono h₁.toExtends
    have hrest₁ : ∀ w ∈ rest, s₁.Rooted (a.module.isDefined · = true) w.context :=
      fun w' hw' => (hrest w' hw').mono h₁.toExtends
    split
    · exact .pure h₁.ordered h₁.idle
        ⟨⟨hw₁, hrest₁⟩, .leave hcallers (fun _ _ => rfl) (.refl _ _)⟩
    · refine (rebuild_keeps (fun _ hf => hf) h₁.ordered h₁.idle hw₁ (.inl hstate.2)).bind
        fun D₂ s₂ c h₂ hc => ?_
      obtain ⟨hrooted, -, hcallees⟩ := hc
      refine (replaceTop_keeps (h := ⟨w.context, rest, h.current⟩) h₂.ordered h₂.idle hrooted
        (fun w' hw' => (hrest₁ w' hw').mono h₂.toExtends)
        fun w' hw' => (hids w' hw').trans_le (h₁.nextId_le.trans h₂.nextId_le)).imp
        fun D₃ s₃ h' _ hh' => ?_
      obtain ⟨hstacked, rfl, hraised⟩ := hh'
      exact ⟨hstacked, .leave hcallers (hcallees hw₁.isDefined) hraised⟩

variable (hn : a.module.NamesFunctions)

include hm hn

theorem stepDynamic_keeps (hs : s.Ordered) (hidle : s.Idle) (hh : s.Stacked h)
    (hids : ∀ w ∈ h.callers, w.context.id < s.nextId) (pc next : ValueId) :
    Keeps D s (stepDynamic h pc next) fun _ s' h' =>
      s'.Stacked h' ∧ Moves a.module h (.step pc next) h' := by
  rw [stepDynamic]
  refine (nextContext_keeps (fun _ hf => hf) hs hidle hh.top pc
    fun i hi => hn.isDefined hm hi).bind fun D₁ s₁ turn h₁ hturn => ?_
  have hh₁ := hh.mono h₁.toExtends
  cases turn with
  | same =>
    exact .pure h₁.ordered h₁.idle
      ⟨⟨hh₁.top, hh₁.callers⟩, .stay (fun _ _ => rfl) (.refl _ _)⟩
  | enter c =>
    exact .pure h₁.ordered h₁.idle
      ⟨⟨hturn c rfl, List.forall_mem_cons.mpr ⟨hh₁.top, hh₁.callers⟩⟩, .enter rfl⟩
  | leave =>
    refine (leave_keeps h₁.ordered h₁.idle hh₁
      (fun w hw => (hids w hw).trans_le h₁.nextId_le) pc next).bind fun D₂ s₂ h' h₂ hh' => ?_
    refine .pure h₂.ordered h₂.idle ⟨⟨hh'.1.top, hh'.1.callers⟩, ?_⟩
    cases hh'.2 with
    | stay htop hraised => exact .stay htop hraised
    | enter hcallers => exact .enter hcallers
    | leave hcallers htop hraised => exact .leave hcallers htop hraised

theorem act_keeps (hs : s.Ordered) (hidle : s.Idle) (hsound : s.Sound K) (hh : s.Stacked h)
    (hwithin : h.Within K) (e : Event) :
    Keeps D s (act h e) fun _ s' h' => s'.Stacked h' ∧ Moves a.module h e h' := by
  cases e with
  | learn pc isNvm => exact learn_keeps hm hs hidle hsound hh hwithin pc isNvm
  | learnCallee pc callee => exact learnCallee_keeps hm hs hidle hsound hh hwithin pc callee
  | step pc next =>
    exact stepDynamic_keeps hm hn hs hidle hh
      (fun w hw => hsound.id_lt _ (hwithin.callers w hw)) pc next

omit hm hn

/-! ## Factories -/

theorem startDynamic_keeps (hs : s.Ordered) (hidle : s.Idle) {f : FunctionId}
    (hf : a.module.isDefined f = true) (first : ValueId) {d : Descriptor} (hd : Known D s d) :
    Keeps D s (startDynamic f first d) fun _ s' h' => s'.Stacked h' := by
  rw [startDynamic]
  refine (construct_keeps hs hidle hd false).bind
    fun D₁ s₁ c h₁ hfiled => .pure h₁.ordered h₁.idle ?_
  exact ⟨h₁.ordered.rooted (fun _ hf => hf) hfiled hf, List.forall_mem_nil _⟩

theorem prepare_keeps (hs : s.Ordered) (hidle : s.Idle) (settings : Config.Settings)
    (sites : List ValueId) : Keeps D s (Factory.prepare settings sites) fun _ _ _ => True := by
  rw [Factory.prepare]
  refine (fresh_keeps hs hidle
    (.initial a.module settings.allocFunctions sites)).bind fun D₁ s₁ id h₁ hid => ?_
  refine (intern_keeps h₁.ordered h₁.idle (.inl hid)).bind fun D₂ s₂ initial h₂ _ => ?_
  split
  · exact ((someTables_quiet _).keeps h₂.ordered h₂.idle).bind
      fun D₃ s₃ t h₃ _ => .pure h₃.ordered h₃.idle trivial
  · exact .pure h₂.ordered h₂.idle trivial

theorem make_keeps (hs : s.Ordered) (hidle : s.Idle) (settings : Config.Settings)
    (sites : Option (List ValueId)) :
    Keeps D s (Factory.make settings sites) fun _ _ _ => True := by
  rw [Factory.make]
  split
  · exact .pure hs hidle trivial
  · refine (prepare_keeps hs hidle settings []).bind fun D₁ s₁ plain h₁ _ => ?_
    cases sites with
    | none => exact .pure h₁.ordered h₁.idle trivial
    | some sites =>
      refine (prepare_keeps h₁.ordered h₁.idle settings sites).bind fun D₂ s₂ p h₂ _ => ?_
      exact .pure h₂.ordered h₂.idle trivial

end Session

/-! ## Runs -/

/-- The run notes for each heuristic the events that led to it, the last one first, each with
the heuristic before it. -/
abbrev TracedRun (a : Analysis) :
    List (DynamicHeuristic × List (DynamicHeuristic × Event)) → Session a → Prop :=
  Run a (fun _ _ past => past = []) fun h e past past' => past' = (h, e) :: past

section Runs

variable {l : Listing} {hs : List (DynamicHeuristic × List (DynamicHeuristic × Event))}
  {s : Session a} {h : DynamicHeuristic} {past : List (DynamicHeuristic × Event)}

theorem TracedRun.remembers (hm : a.module.Built) (hn : a.module.NamesFunctions)
    (hrun : TracedRun a hs s) :
    s.Ordered ∧ ∀ x ∈ hs, s.Stacked x.1 ∧ x.1.Remembers a.module x.2 := by
  induction hrun with
  | empty => exact ⟨.empty, fun x hx => nomatch hx⟩
  | make settings sites hrun ih =>
    obtain ⟨hs, hall⟩ := ih
    obtain ⟨K, -, hidle, -⟩ := Run.within hm hrun
    obtain ⟨D, hl, -⟩ := Session.make_keeps (D := Set.univ) hs hidle settings sites
    exact ⟨hl.ordered, fun x hx => ⟨(hall x hx).1.mono hl.toExtends, (hall x hx).2⟩⟩
  | create p entry first hrun hcreate _ hstarts ih =>
    obtain ⟨hs, hall⟩ := ih
    obtain ⟨K, -, hidle, -⟩ := Run.within hm hrun
    obtain ⟨hdef, first', -, hstart⟩ := Session.create_eq_dynamic hcreate
    obtain ⟨D, hl, hstacked⟩ := Session.startDynamic_keeps hs hidle hdef first'
      (d := p.initial) (D := Set.univ) (.inl trivial)
    rw [hstart] at hl hstacked
    refine ⟨hl.ordered, List.forall_mem_cons.mpr ⟨⟨hstacked, ?_⟩, fun x hx =>
      ⟨(hall x hx).1.mono hl.toExtends, (hall x hx).2⟩⟩⟩
    subst hstarts
    exact .start
  | event e hrun hmem hgoes htake ih =>
    obtain ⟨hs, hall⟩ := ih
    obtain ⟨K, hsound, hidle, hwithin⟩ := Run.within hm hrun
    obtain ⟨D, hl, hstacked, hmoves⟩ := Session.act_keeps hm hn (D := Set.univ) hs hidle hsound
      (hall _ hmem).1 (hwithin _ hmem) e
    rw [Session.take_dynamic (Session.exists_of_take htake)] at htake
    cases htake
    subst hgoes
    exact ⟨hl.ordered, List.forall_mem_cons.mpr ⟨⟨hstacked, (hall _ hmem).2.event hmoves⟩,
      fun x hx => ⟨(hall x hx).1.mono hl.toExtends, (hall x hx).2⟩⟩⟩

/-- In a module whose instructions all name the function that lists them, each frame knows of
each indirect call what it was told last, and a call that has a child has one as long as the
frame is on the stack. -/
theorem Run.keepsResolved (hl : l.build = .ok a.module) (hn : a.module.NamesFunctions)
    (hrun : TracedRun a hs s) (hmem : (h, past) ∈ hs) {j : Nat} (hj : j < h.depth) {v : ValueId}
    (hv : a.module.isIndirectCall v = true) :
    h.callee? j v = h.target? a.module past j v ∧
      ∀ h₀, DynamicHeuristic.Since j h₀ h past → (h₀.callee? j v).isSome = true →
        (h.callee? j v).isSome = true :=
  ((TracedRun.remembers (Listing.build_built hl) hn hrun).2 _ hmem).2 j hj v hv

/-- An event whose functions exist goes on with a run. -/
theorem TracedRun.exists_event (hm : a.module.Built) (hrun : TracedRun a hs s)
    (hmem : (h, past) ∈ hs) {e : Event} (he : e.Exists a.module) :
    ∃ K h' s', TracedRun a ((h', (h, e) :: past) :: hs) s' ∧ e.Outcome a.module K h h' := by
  obtain ⟨K, hsound, hidle, hwithin⟩ := hrun.within hm
  obtain ⟨K', -, houtcome⟩ := Session.act_makes hm hsound hidle (hwithin _ hmem) he
  exact ⟨K', _, _, hrun.event e hmem rfl (Session.take_dynamic he h s), houtcome⟩

end Runs

/-- A thread learns what a call through a pointer calls, and then that the call allocates
persistent memory: other facts, and the same callee. -/
theorem Run.keepsResolved_pointerCall : ∃ m, pointerCall.build = .ok m ∧ ∀ pointsTo,
    ∃ h h₀ h₁ hs s, TracedRun ⟨m, pointsTo⟩
      ((h, [(h₁, .learn ⟨3⟩ true), (h₀, .learnCallee ⟨3⟩ ⟨0⟩)]) :: hs) s ∧
      h.callee? 0 ⟨3⟩ = some ⟨0⟩ := by
  obtain ⟨m, hl, hn, hcallee, hmain, hcall⟩ := Listing.exists_build (l := pointerCall)
    (p := fun m => m.NamesFunctions ∧ m.isDefined ⟨0⟩ ∧ m.isDefined ⟨1⟩ ∧ m.isIndirectCall ⟨3⟩)
    (by decide +kernel)
  have hm := Listing.build_built hl
  refine ⟨m, hl, fun pointsTo => ?_⟩
  obtain ⟨first, hfirst, hcreate⟩ :=
    Session.create_dynamic (a := ⟨m, pointsTo⟩) hm (p := dynamicFactory) rfl hmain {}
  obtain ⟨h₀, s₀, hrun₀, hdepth₀⟩ :
      ∃ h₀ s₀, TracedRun ⟨m, pointsTo⟩ [(h₀, [])] s₀ ∧ h₀.depth = 1 :=
    ⟨_, _, .create dynamicFactory ⟨1⟩ first .empty hcreate hfirst rfl, rfl⟩
  obtain ⟨K₁, h₁, s₁, hrun₁, houtcome₁⟩ := hrun₀.exists_event hm List.mem_cons_self
    (e := .learnCallee ⟨3⟩ ⟨0⟩) (Module.isSome_of_isDefined hcallee)
  obtain ⟨K₂, h₂, s₂, hrun₂, houtcome₂⟩ := hrun₁.exists_event hm List.mem_cons_self
    (e := .learn ⟨3⟩ true) trivial
  refine ⟨h₂, h₀, h₁, _, s₂, hrun₂, ?_⟩
  -- The thread has one frame all the time.
  have hdepth₁ : h₁.depth = 1 := by
    rw [← h₁.depth_position, houtcome₁.1.position, h₀.depth_position, hdepth₀]
  have hdepth₂ : h₂.depth = 1 := by
    rw [← h₂.depth_position, houtcome₂.position, h₁.depth_position, hdepth₁]
  obtain ⟨htarget, -⟩ := Run.keepsResolved hl hn hrun₂ List.mem_cons_self (j := 0) (by omega) hcall
  have htold : Event.resolved? m (.learnCallee ⟨3⟩ ⟨0⟩) ⟨3⟩ = some ⟨0⟩ := if_pos ⟨rfl, hcallee⟩
  have hsilent : Event.resolved? m (.learn ⟨3⟩ true) ⟨3⟩ = none := rfl
  rw [htarget, DynamicHeuristic.target?_of_active hdepth₁.symm hdepth₂.symm, hsilent,
    Option.none_or, DynamicHeuristic.target?_of_active hdepth₀.symm hdepth₁.symm, htold,
    Option.some_or]

end PmemPaths.Nvm
