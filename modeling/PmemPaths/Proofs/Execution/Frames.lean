import PmemPaths.Proofs.Execution.MergedPaths
import PmemPaths.Proofs.OrderedMap

/-!
# Frames and what they own

A frame owns the objects that were bound while it was the innermost one, and leaving it
unbinds them.  Objects are bound in one space for all frames, by address, so a frame could
take away what another one owns, or leave something behind.

It does neither as long as nothing is bound at an address that is taken.  Then the objects
that a frame owns are, at every moment, those that are bound now and were not when it was
entered (`Owns`), whatever was entered and left in between, and at whatever addresses.
Leaving the frame gives back the space as it was, up to what was written
(`State.frame_releases`).
-/

namespace PmemPaths.Memory.AddressSpace

open PmemPaths.Symbolic (Expr)

variable {s t old new : AddressSpace} {o p : MemoryObject} {c : Contents} {address a : Nat}
  {e : Expr} {owned : List MemoryObject}

/-! ## The object at an address -/

/-- The object that is bound with that first address. -/
def objectAt? (s : AddressSpace) (address : Nat) : Option MemoryObject :=
  s.bindings[address]?.map (·.object)

theorem objectAt?_bind :
    (s.bind o c).objectAt? a = if o.address = a then some o else s.objectAt? a := by
  rw [objectAt?, bind, Std.ExtTreeMap.getElem?_insert]
  simp only [Nat.compare_eq_eq]
  split
  · rfl
  · rfl

/-- A write changes the contents of an object and not the object. -/
theorem objectAt?_write? (h : s.write? address e = some t) : t.objectAt? a = s.objectAt? a := by
  obtain ⟨k, b, contents, hb, rfl⟩ :
      ∃ k b contents, s.bindings[k]? = some b ∧ t = ⟨s.bindings.insert k { b with contents }⟩ := by
    rw [AddressSpace.write?] at h
    split at h
    · cases h
    · next offset _ =>
      split at h
      · next u hu =>
        cases h
        obtain ⟨⟨k, b⟩, hentry, hu⟩ := Option.bind_eq_some_iff.mp hu
        obtain ⟨-, hu⟩ := Option.ite_none_right_eq_some.mp hu
        exact ⟨k, b, _, (of_getEntryLE? hentry).1, (Prod.mk.inj (Option.some.inj hu)).1.symm⟩
      · cases h
  rw [objectAt?, objectAt?, Std.ExtTreeMap.getElem?_insert]
  simp only [Nat.compare_eq_eq]
  split
  · next hk =>
    rw [← hk, hb]
    rfl
  · rfl

/-- Where nothing else is bound, unbinding an object leaves nothing. -/
theorem objectAt?_unbind (h : ∀ p, s.objectAt? o.address = some p → p = o) :
    (s.unbind o).objectAt? a = if o.address = a then none else s.objectAt? a := by
  rw [unbind]
  split
  · rw [objectAt?, Std.ExtTreeMap.getElem?_erase]
    simp only [Nat.compare_eq_eq]
    split
    · rfl
    · rfl
  · next hbinds =>
    split
    · next ha =>
      cases hb : s.bindings[o.address]? with
      | none => rw [objectAt?, ← ha, hb]; rfl
      | some b =>
        have ho := h b.object (by rw [objectAt?, hb]; rfl)
        rw [binds, hb] at hbinds
        simp [ho] at hbinds
    · rfl

/-- All that is unbound is gone, and nothing else. -/
theorem objectAt?_foldl_unbind (h : ∀ o ∈ owned, ∀ p, s.objectAt? o.address = some p → p = o) :
    (owned.foldl unbind s).objectAt? a =
      if ∃ o ∈ owned, o.address = a then none else s.objectAt? a := by
  induction owned generalizing s with
  | nil => simp
  | cons o owned ih =>
    have ho := @objectAt?_unbind s o (h := h o List.mem_cons_self)
    have hrest : ∀ q ∈ owned, ∀ p, (s.unbind o).objectAt? q.address = some p → p = q := by
      intro q hq p hp
      rw [ho] at hp
      exact h q (List.mem_cons_of_mem _ hq) p (Option.ite_none_left_eq_some.mp hp).2
    rw [List.foldl_cons, ih hrest, ho]
    simp only [List.mem_cons, exists_eq_or_imp]
    by_cases hoa : o.address = a
    · simp [hoa]
    · simp [hoa]

/-! ## Owned objects -/

/-- The owned objects are what is bound in the new space and was not in the old one. -/
structure Owns (owned : List MemoryObject) (old new : AddressSpace) : Prop where
  bound : ∀ o ∈ owned, new.objectAt? o.address = some o
  added : ∀ o ∈ owned, old.objectAt? o.address = none
  other : ∀ a, (∀ o ∈ owned, o.address ≠ a) → new.objectAt? a = old.objectAt? a

namespace Owns

theorem refl : Owns [] s s :=
  ⟨fun _ h => (List.not_mem_nil h).elim, fun _ h => (List.not_mem_nil h).elim, fun _ _ => rfl⟩

/-- Spaces with the same objects are the same to owners. -/
theorem congr (h : Owns owned s new) (hs : ∀ a, s.objectAt? a = old.objectAt? a) :
    Owns owned old new where
  bound := h.bound
  added o ho := (hs _).symm.trans (h.added o ho)
  other a ha := (h.other a ha).trans (hs a)

/-- An object that was bound before the others is owned too. -/
theorem cons (h : Owns owned (old.bind o c) new) (ho : old.objectAt? o.address = none) :
    Owns (o :: owned) old new := by
  -- The others are at other addresses, since nothing was bound there.
  have hne : ∀ p ∈ owned, o.address ≠ p.address := fun p hp heq => by
    have hnone := h.added p hp
    rw [objectAt?_bind, if_pos heq] at hnone
    cases hnone
  constructor
  · refine List.forall_mem_cons.mpr ⟨?_, h.bound⟩
    rw [h.other _ fun p hp => (hne p hp).symm, objectAt?_bind, if_pos rfl]
  · refine List.forall_mem_cons.mpr ⟨ho, fun p hp => ?_⟩
    have hnone := h.added p hp
    rwa [objectAt?_bind, if_neg (hne p hp)] at hnone
  · intro a ha
    obtain ⟨hoa, hrest⟩ := List.forall_mem_cons.mp ha
    rw [h.other a hrest, objectAt?_bind, if_neg hoa]

/-- Unbinding what is owned gives the old objects. -/
theorem release (h : Owns owned old new) (a : Nat) :
    (owned.foldl unbind new).objectAt? a = old.objectAt? a := by
  rw [objectAt?_foldl_unbind fun o ho p hp => by
    rw [h.bound o ho] at hp
    exact (Option.some.inj hp).symm]
  split
  · next ha =>
    obtain ⟨o, ho, rfl⟩ := ha
    exact (h.added o ho).symm
  · next ha =>
    exact h.other a fun o ho hoa => ha ⟨o, ho, hoa⟩

end Owns

end PmemPaths.Memory.AddressSpace

namespace PmemPaths.Execution

open PmemPaths.Ir (FunctionId Module ValueId)
open PmemPaths.Memory (AddressSpace Contents MemoryObject)
open PmemPaths.Symbolic (Expr)

/-! ## Operations on frames -/

/-- What is done to the frames of a thread and to memory. -/
inductive FrameOp where
  /-- Enters a function. -/
  | push (caller : ValueId) (f : FunctionId)
  /-- Leaves the innermost frame. -/
  | pop
  /-- Binds an object that the innermost frame owns. -/
  | bindLocal (o : MemoryObject) (c : Contents)
  /-- Writes a byte, if it can be written. -/
  | write (address : Nat) (e : Expr)

namespace FrameOp

/-- Does one operation. -/
def perform (m : Module) (s : State) : FrameOp → Except Abort State
  | .push caller f => s.pushFrame m caller f
  | .pop => s.popFrame
  | .bindLocal o c => s.bindLocal o c
  | .write address e => .ok { s with memory := (s.memory.write? address e).getD s.memory }

/-- Does operations one after the other. -/
def run (m : Module) (s : State) (ops : List FrameOp) : Except Abort State :=
  ops.foldlM (perform m) s

/-- A function that is entered exists. -/
def Callable (m : Module) : FrameOp → Prop
  | .push _ f => (m.function? f).isSome = true
  | _ => True

/-- Where an object is to be bound, none is. -/
def Admitted (s : AddressSpace) : FrameOp → Prop
  | .bindLocal o _ => s.objectAt? o.address = none
  | _ => True

/-- At each moment, where an object is to be bound, none is. -/
def AllAdmitted (m : Module) : State → List FrameOp → Prop
  | _, [] => True
  | s, op :: ops => op.Admitted s.memory ∧ ∀ t, op.perform m s = .ok t → AllAdmitted m t ops

/-- All frames that are entered are left, and no others. -/
inductive Bracketed : List FrameOp → Prop
  | nil : Bracketed []
  | bindLocal {o : MemoryObject} {c : Contents} {ops : List FrameOp} :
      Bracketed ops → Bracketed (.bindLocal o c :: ops)
  | write {address : Nat} {e : Expr} {ops : List FrameOp} :
      Bracketed ops → Bracketed (.write address e :: ops)
  | frame {caller : ValueId} {f : FunctionId} {body ops : List FrameOp} :
      Bracketed body → Bracketed ops → Bracketed (.push caller f :: (body ++ .pop :: ops))

variable {m : Module} {s t : State} {op : FrameOp} {ops ops' : List FrameOp}

theorem run_nil : run m s [] = .ok s := rfl

theorem run_cons (h : op.perform m s = .ok t) : run m s (op :: ops) = run m t ops := by
  rw [run, List.foldlM_cons, h]
  rfl

theorem run_append (h : run m s ops = .ok t) : run m s (ops ++ ops') = run m t ops' := by
  rw [run, List.foldlM_append]
  exact congrArg (· >>= _) h

theorem AllAdmitted.cons (hop : op.Admitted s.memory) (h : op.perform m s = .ok t)
    (hops : AllAdmitted m t ops) : AllAdmitted m s (op :: ops) := by
  refine ⟨hop, fun u hu => ?_⟩
  cases h.symm.trans hu
  exact hops

theorem AllAdmitted.left (h : AllAdmitted m s (ops ++ ops')) : AllAdmitted m s ops := by
  induction ops generalizing s with
  | nil => trivial
  | cons op ops ih => exact ⟨h.1, fun t ht => ih (h.2 t ht)⟩

theorem AllAdmitted.right (h : AllAdmitted m s (ops ++ ops')) (hrun : run m s ops = .ok t) :
    AllAdmitted m t ops' := by
  induction ops generalizing s with
  | nil =>
    cases hrun
    exact h
  | cons op ops ih =>
    obtain ⟨u, hu, hrun⟩ := bind_eq_ok.mp hrun
    exact ih (h.2 u hu) hrun

end FrameOp

namespace State

open FrameOp

variable {m : Module} {s : State} {x : Thread} {top : Frame} {stack : List Frame}
  {memory : AddressSpace} {ops body : List FrameOp} {caller : ValueId} {f : FunctionId}

/-! ## One operation -/

/-- The state with another stack of the current thread, and other memory. -/
def withStack (s : State) (x : Thread) (stack : List Frame) (memory : AddressSpace) : State :=
  { s.setThread { x with stack } with memory }

theorem thread_withStack : (s.withStack x stack memory).thread = .ok { x with stack } := by
  simp [thread, withStack, setThread]

/-- A thread's own stack changes nothing. -/
theorem withStack_self (h : s.thread = .ok x) :
    s.withStack x x.stack memory = { s with memory } := by
  have hx : s.threads[s.current]? = some x := by
    rw [thread] at h
    split at h
    · next hy =>
      cases h
      exact hy
    · cases h
  have hthreads : s.threads.insert s.current x = s.threads := by
    refine Std.ExtTreeMap.ext_getElem? fun k => ?_
    rw [Std.ExtTreeMap.getElem?_insert]
    split
    · next hk => rw [← Std.LawfulEqOrd.eq_of_compare hk, hx]
    · rfl
  rw [withStack, setThread, hthreads]

theorem setThread_withStack {stack' : List Frame} {memory' : AddressSpace} :
    { (s.withStack x stack memory).setThread { x with stack := stack' } with
      memory := memory' } = s.withStack x stack' memory' := by
  have hthreads : (s.threads.insert s.current { x with stack }).insert s.current
      { x with stack := stack' } = s.threads.insert s.current { x with stack := stack' } := by
    refine Std.ExtTreeMap.ext_getElem? fun k => ?_
    simp only [Std.ExtTreeMap.getElem?_insert]
    split <;> rfl
  simp only [withStack, setThread, hthreads]

theorem perform_push (hf : (m.function? f).isSome = true) :
    (FrameOp.push caller f).perform m (s.withStack x stack memory) =
      .ok (s.withStack x (.ofFunction m (some caller) f :: stack) memory) := by
  have hnone : ¬(m.function? f).isNone = true := by
    rw [Option.isNone_iff_eq_none]
    exact Option.isSome_iff_ne_none.mp hf
  rw [FrameOp.perform, pushFrame, if_neg hnone, thread_withStack]
  exact congrArg Except.ok setThread_withStack

theorem perform_pop : FrameOp.pop.perform m (s.withStack x (top :: stack) memory) =
    .ok (s.withStack x stack (top.allocas.foldl AddressSpace.unbind memory)) := by
  rw [FrameOp.perform, popFrame, thread_withStack]
  exact congrArg Except.ok setThread_withStack

theorem perform_bindLocal {o : MemoryObject} {c : Contents} :
    (FrameOp.bindLocal o c).perform m (s.withStack x (top :: stack) memory) =
      .ok (s.withStack x ({ top with allocas := top.allocas ++ [o] } :: stack)
        (memory.bind o c)) := by
  rw [FrameOp.perform, bindLocal, thread_withStack]
  exact congrArg Except.ok setThread_withStack

theorem perform_write {address : Nat} {e : Expr} :
    (FrameOp.write address e).perform m (s.withStack x stack memory) =
      .ok (s.withStack x stack ((memory.write? address e).getD memory)) := rfl

/-! ## Bracketed operations -/

/-- A frame goes through when its body does, and what its body left to it is unbound. -/
theorem run_frame {owned : List MemoryObject} {memory' : AddressSpace}
    (hf : (m.function? f).isSome = true)
    (hbody : run m (s.withStack x (.ofFunction m (some caller) f :: stack) memory) body =
      .ok (s.withStack x ({ Frame.ofFunction m (some caller) f with allocas := owned } :: stack)
        memory')) :
    run m (s.withStack x stack memory) (.push caller f :: (body ++ .pop :: ops)) =
      run m (s.withStack x stack (owned.foldl AddressSpace.unbind memory')) ops :=
  (run_cons (perform_push hf)).trans <| (run_append hbody).trans <| run_cons perform_pop

/-- Bracketed operations go through.  What they leave behind, apart from what was written,
the innermost frame owns. -/
theorem run_bracketed (h : Bracketed ops) (hcallable : ∀ op ∈ ops, op.Callable m)
    (hadmitted : AllAdmitted m (s.withStack x (top :: stack) memory) ops) :
    ∃ owned memory', run m (s.withStack x (top :: stack) memory) ops =
        .ok (s.withStack x ({ top with allocas := top.allocas ++ owned } :: stack) memory') ∧
      AddressSpace.Owns owned memory memory' := by
  induction h generalizing top stack memory with
  | nil => exact ⟨[], memory, by rw [List.append_nil]; rfl, .refl⟩
  | @bindLocal o c ops _ ih =>
    obtain ⟨ho, hrest⟩ := hadmitted
    obtain ⟨owned, memory', hrun, howns⟩ :=
      ih (fun op hop => hcallable op (List.mem_cons_of_mem _ hop)) (hrest _ perform_bindLocal)
    rw [List.append_assoc] at hrun
    exact ⟨o :: owned, memory', (run_cons perform_bindLocal).trans hrun, howns.cons ho⟩
  | @write address e ops _ ih =>
    obtain ⟨-, hrest⟩ := hadmitted
    obtain ⟨owned, memory', hrun, howns⟩ :=
      ih (fun op hop => hcallable op (List.mem_cons_of_mem _ hop)) (hrest _ perform_write)
    refine ⟨owned, memory', (run_cons perform_write).trans hrun, howns.congr fun a => ?_⟩
    cases hwrite : memory.write? address e with
    | none => rfl
    | some written => exact AddressSpace.objectAt?_write? hwrite
  | @frame caller f body ops _ _ ihbody ih =>
    have hf : (m.function? f).isSome = true := hcallable _ List.mem_cons_self
    have hcallable' := fun op hop => hcallable op (List.mem_cons_of_mem _ hop)
    have hadmitted' := hadmitted.2 _ (perform_push hf)
    obtain ⟨inner, memory₁, hbody, hinner⟩ :=
      ihbody (fun op hop => hcallable' op (List.mem_append_left _ hop)) hadmitted'.left
    obtain ⟨owned, memory', hrun, howns⟩ := ih (fun op hop => hcallable' op
      (List.mem_append_right _ (List.mem_cons_of_mem _ hop)))
      ((hadmitted'.right hbody).2 _ perform_pop)
    exact ⟨owned, memory', (run_frame hf hbody).trans hrun, howns.congr hinner.release⟩

/-- Entering a frame, doing anything that is bracketed, and leaving it goes through.  The state
is as it was, its stack and all, but for its memory, where the same objects are bound at the
same addresses. -/
theorem frame_releases (hx : s.thread = .ok x) (hbody : Bracketed body)
    (hcallable : ∀ op ∈ .push caller f :: body, op.Callable m)
    (hadmitted : AllAdmitted m s (.push caller f :: body)) :
    ∃ memory, run m s (.push caller f :: (body ++ [.pop])) = .ok { s with memory } ∧
      ∀ address, memory.objectAt? address = s.memory.objectAt? address := by
  have hself : s.withStack x x.stack s.memory = s := withStack_self hx
  have hf : (m.function? f).isSome = true := hcallable _ List.mem_cons_self
  rw [← hself] at hadmitted
  obtain ⟨owned, memory, hrun, howns⟩ := run_bracketed hbody
    (fun op hop => hcallable op (List.mem_cons_of_mem _ hop)) (hadmitted.2 _ (perform_push hf))
  refine ⟨owned.foldl AddressSpace.unbind memory, ?_, howns.release⟩
  have hframe : run m (s.withStack x x.stack s.memory) (.push caller f :: (body ++ [.pop])) = _ :=
    run_frame hf hrun
  rwa [hself, run_nil, withStack_self hx] at hframe

/-- An object of one byte. -/
def oneByte (id address : Nat) : MemoryObject := ⟨⟨id⟩, address, 1, "x", false⟩

/-- One byte, which is zero. -/
def zeroByte : Contents := ⟨#[.mkConstant () 0 8], false⟩

/-- Inside a frame that owns an object, two frames bind an object at one address, one after
the other. -/
def reuse : List FrameOp :=
  [.bindLocal (oneByte 2 20) zeroByte, .write 10 (.mkConstant () 1 8),
    .push ⟨4⟩ ⟨0⟩, .bindLocal (oneByte 3 30) zeroByte, .pop,
    .push ⟨4⟩ ⟨0⟩, .bindLocal (oneByte 4 30) zeroByte, .write 30 (.mkConstant () 1 8), .pop]

/-- The first frame of the thread owns an object that is written from inside. -/
theorem frame_releases_reuse : ∃ m, Nvm.directCall.build = .ok m ∧ ∀ pointsTo,
    ∃ r s : State, initial offFactory 1 ⟨1⟩ ({} : Nvm.Session ⟨m, pointsTo⟩) = (.ok r, {}) ∧
      r.bindLocal (oneByte 1 10) zeroByte = .ok s ∧
      Bracketed reuse ∧ AllAdmitted m s (.push ⟨4⟩ ⟨0⟩ :: reuse) ∧
      ∃ memory, run m s (.push ⟨4⟩ ⟨0⟩ :: (reuse ++ [.pop])) = .ok { s with memory } ∧
        ∀ address, memory.objectAt? address = s.memory.objectAt? address := by
  obtain ⟨m, hl, hdef, hf⟩ := Ir.Listing.exists_build (l := Nvm.directCall)
    (p := fun m => m.isDefined ⟨1⟩ = true ∧ (m.function? ⟨0⟩).isSome = true) (by decide +kernel)
  refine ⟨m, hl, fun pointsTo => ?_⟩
  obtain ⟨x, -, -, hinitial⟩ := initial_off (a := ⟨m, pointsTo⟩) (Ir.Listing.build_built hl) hdef
  let r : State := { id := 1, threads := (∅ : Std.ExtTreeMap ThreadUid Thread).insert .main x }
  have hbracketed : Bracketed reuse :=
    .bindLocal <| .write <| .frame (.bindLocal .nil) <| .frame (.bindLocal (.write .nil)) .nil
  have hcallable : ∀ op ∈ .push ⟨4⟩ ⟨0⟩ :: reuse, op.Callable m := by
    simp [reuse, FrameOp.Callable, hf]
  obtain ⟨stack, hbind⟩ : ∃ stack, r.bindLocal (oneByte 1 10) zeroByte =
      .ok (r.withStack x stack (({} : AddressSpace).bind (oneByte 1 10) zeroByte)) := ⟨_, rfl⟩
  have hadmitted : AllAdmitted m (r.withStack x stack
      (({} : AddressSpace).bind (oneByte 1 10) zeroByte)) (.push ⟨4⟩ ⟨0⟩ :: reuse) :=
    .cons trivial (perform_push hf) <|
    .cons rfl perform_bindLocal <|
    .cons trivial perform_write <|
    .cons trivial (perform_push hf) <|
    .cons rfl perform_bindLocal <|
    .cons trivial perform_pop <|
    .cons trivial (perform_push hf) <|
    .cons rfl perform_bindLocal <|
    .cons trivial perform_write <|
    .cons trivial perform_pop trivial
  exact ⟨r, _, hinitial, hbind, hbracketed, hadmitted,
    frame_releases thread_withStack hbracketed hcallable hadmitted⟩

end State

end PmemPaths.Execution
