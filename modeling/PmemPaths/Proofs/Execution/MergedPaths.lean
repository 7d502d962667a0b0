import PmemPaths.Proofs.Execution.Sleepers
import PmemPaths.Proofs.Outcome

/-!
# Paths that went apart

Two paths that went apart can be merged when their threads are at the same places and their
inputs and objects are the same.  What the threads wait on and which objects are persistent
is neither compared nor joined: the merged path has all that from the first path
(`State.merged_takes_first`).

So it stands for the second path too only where the two agree on that.  Whether they do is
told by what happened since they went apart: the same threads must have been put to sleep
and not been woken, and the same objects must have become persistent.  A merge does not
refuse paths on which that is not so (`State.merged_loses_second`).
-/

namespace PmemPaths.Execution.State

open PmemPaths.Ir (FunctionId ValueId)
open PmemPaths.Memory (AddressSpace MemoryObject ObjectId Contents)
open PmemPaths.Nvm (Analysis CheckedM Factory Heuristic Session)
open PmemPaths.Symbolic (Node PathCondition SymbolicArray)

variable {a : Analysis} {s s' t u r : State} {v : ThreadUid} {list : Nat}

/-! ## Work that concerns no queue -/

/-- Who waits where and what is persistent is the same. -/
structure Agree (s s' : State) : Prop extends SameQueues s s' where
  persistent : s'.persistent = s.persistent

/-- Operations on a path besides those on threads and lists. -/
inductive Work (a : Analysis) : State → State → Prop
  | addSymbolic {s s' : State} {o : MemoryObject} {array : SymbolicArray} :
      s.addSymbolic o array = .ok s' → Work a s s'
  | addConstraint {s s' : State} {t : Node} : s.addConstraint t = .ok s' → Work a s s'
  | pushFrame {s s' : State} {caller : ValueId} {f : FunctionId} :
      s.pushFrame a.module caller f = .ok s' → Work a s s'
  | popFrame {s s' : State} : s.popFrame = .ok s' → Work a s s'
  | bindLocal {s s' : State} {o : MemoryObject} {c : Contents} :
      s.bindLocal o c = .ok s' → Work a s s'
  | setLocal {s s' : State} {frame cell : Nat} {e : Option Symbolic.Expr} :
      s.setLocal frame cell e = .ok s' → Work a s s'
  | step {s s' : State} {next : ValueId} {σ σ' : Session a} :
      s.step next σ = .ok (s', σ') → Work a s s'
  | learn {s s' : State} {pc : ValueId} {isNvm : Bool} {σ σ' : Session a} :
      s.learn pc isNvm σ = .ok (s', σ') → Work a s s'
  | learnCallee {s s' : State} {pc : ValueId} {f : FunctionId} {σ σ' : Session a} :
      s.learnCallee pc f σ = .ok (s', σ') → Work a s s'
  /-- The path goes on in the state that forked. -/
  | forkStay {s s' child : State} {id : Nat} {tree tree' : ProcessTree} :
      s.forkInto id tree = .ok (s', child, tree') → Work a s s'
  /-- The path goes on in the new state. -/
  | fork {s s' child : State} {id : Nat} {tree tree' : ProcessTree} :
      s.forkInto id tree = .ok (s', child, tree') → Work a s child
  | leaveTree {s : State} {tree : ProcessTree} : Work a s (s.leaveTree tree).1
  /-- Memory, constraints and counts are changed in place. -/
  | change {s : State} {memory : AddressSpace} {condition : PathCondition}
      {time queryCost depth sinceCovered : Nat} {coveredNew forkDisabled : Bool}
      {covered : Std.ExtTreeMap String (Std.ExtTreeSet Nat)} {node : Option Nat} :
      Work a s { s with
        memory, condition, time, queryCost, depth, sinceCovered, coveredNew, forkDisabled,
        covered, node }

theorem thread_eq_ok {x : Thread} : s.thread = .ok x ↔ s.threads[s.current]? = some x := by
  rw [thread]
  cases s.threads[s.current]? with
  | none => simp
  | some y => simp

/-- What is persistent, the symbolic inputs, and the names that are taken. -/
def inherited (s : State) :
    Std.ExtTreeSet ObjectId × List (MemoryObject × SymbolicArray) × Std.ExtTreeSet String :=
  (s.persistent, s.symbolics, s.arrayNames)

/-- Who waits where is the same, and so is what is inherited. -/
structure Alike (s s' : State) : Prop extends SameQueues s s' where
  inherited : s'.inherited = s.inherited

theorem Alike.agree (h : Alike s s') : Agree s s' :=
  ⟨h.toSameQueues, congrArg (·.1) h.inherited⟩

/-- The current thread changes, but not whether and where it waits. -/
theorem alike_of_insert {x y : Thread} (hx : s.thread = .ok x)
    (hthreads : s'.threads = s.threads.insert s.current y) (hy : y.standing = x.standing)
    (hcurrent : s'.current = s.current) (hwaiting : s'.waiting = s.waiting)
    (hinherited : s'.inherited = s.inherited) : Alike s s' := by
  refine ⟨⟨hcurrent, hwaiting, fun v => ?_⟩, hinherited⟩
  rw [hthreads, Std.ExtTreeMap.getElem?_insert]
  split
  · next h =>
    rw [← Std.compare_eq_iff_eq.mp h, thread_eq_ok.mp hx, Option.map_some, Option.map_some, hy]
  · rfl

theorem alike_withHeuristic {act : Heuristic → CheckedM a Heuristic} {σ σ' : Session a}
    (h : s.withHeuristic act σ = .ok (s', σ')) : Alike s s' := by
  rw [withHeuristic] at h
  cases hx : s.thread with
  | error e =>
    rw [hx] at h
    cases h
  | ok x =>
    rw [hx] at h
    obtain ⟨⟨heuristic, σ₁⟩, -, ⟨⟩⟩ := bind_eq_ok.mp h
    exact alike_of_insert hx rfl rfl rfl rfl rfl

theorem cover_keeps (s : State) (l : Option Ir.Location) :
    (s.cover l).threads = s.threads ∧ (s.cover l).current = s.current ∧
      (s.cover l).waiting = s.waiting ∧ (s.cover l).inherited = s.inherited := by
  cases l with
  | none => exact ⟨rfl, rfl, rfl, rfl⟩
  | some l =>
    simp only [cover]
    split
    · exact ⟨rfl, rfl, rfl, rfl⟩
    · exact ⟨rfl, rfl, rfl, rfl⟩

theorem alike_step {next : ValueId} {σ σ' : Session a} (h : s.step next σ = .ok (s', σ')) :
    Alike s s' := by
  rw [step] at h
  cases hx : s.thread with
  | error e =>
    rw [hx] at h
    cases h
  | ok x =>
    rw [hx] at h
    obtain ⟨⟨heuristic, σ₁⟩, -, ⟨⟩⟩ := bind_eq_ok.mp h
    obtain ⟨hthreads, hcurrent, hwaiting, hinherited⟩ := cover_keeps
      (s.setThread { x with heuristic, prevPc := x.pc, pc := next })
      ((a.module.instruction? x.pc).bind (·.location))
    exact alike_of_insert hx hthreads rfl hcurrent hwaiting hinherited

theorem alike_branch {id : Nat} {child : State} (h : s.branch id = .ok (s', child)) :
    Alike s s' ∧ Alike s child := by
  have hsame := of_branch h
  rw [branch] at h
  split at h
  · cases h
  · cases h
    exact ⟨⟨hsame.1, rfl⟩, ⟨hsame.2, rfl⟩⟩

theorem alike_forkInto {id : Nat} {child : State} {tree tree' : ProcessTree}
    (h : s.forkInto id tree = .ok (s', child, tree')) : Alike s s' ∧ Alike s child := by
  obtain ⟨⟨s₁, child₁⟩, hbranch, h⟩ := bind_eq_ok.mp h
  obtain ⟨hs, hchild⟩ := alike_branch hbranch
  dsimp only at h
  split at h
  · cases h
    exact ⟨hs, hchild⟩
  · obtain ⟨⟨tree₁, l, r⟩, -, ⟨⟩⟩ := bind_eq_ok.mp h
    exact ⟨⟨⟨hs.current, hs.waiting, hs.standing⟩, hs.inherited⟩,
      ⟨⟨hchild.current, hchild.waiting, hchild.standing⟩, hchild.inherited⟩⟩

theorem takeName_eq (s : State) (name : String) : s.takeName name =
    (s.usesName name, { s with arrayNames := s.arrayNames.insert name }) :=
  Prod.ext Std.ExtTreeSet.containsThenInsert_fst <|
    congrArg (fun arrayNames => { s with arrayNames }) Std.ExtTreeSet.containsThenInsert_snd

theorem addSymbolic_eq (s : State) (o : MemoryObject) (array : SymbolicArray) :
    s.addSymbolic o array =
      if s.usesName array.name then .error (.arrayNameTaken array.name)
      else .ok { s with
        symbolics := s.symbolics ++ [(o, array)]
        arrayNames := s.arrayNames.insert array.name } := by
  rw [addSymbolic, takeName_eq]
  cases s.usesName array.name with
  | true => rfl
  | false => rfl

theorem of_addSymbolic {o : MemoryObject} {array : SymbolicArray}
    (h : s.addSymbolic o array = .ok s') : s.usesName array.name = false ∧
      s' = { s with
        symbolics := s.symbolics ++ [(o, array)]
        arrayNames := s.arrayNames.insert array.name } := by
  rw [addSymbolic_eq] at h
  split at h
  · cases h
  · next hfree =>
    cases h
    exact ⟨Bool.eq_false_iff.mpr hfree, rfl⟩

/-- A symbolic input is added, or else the state is alike. -/
theorem Work.cases (h : Work a s s') :
    (∃ o array, s.addSymbolic o array = .ok s') ∨ Alike s s' := by
  have same : ∀ {s' : State}, s'.current = s.current → s'.waiting = s.waiting →
      s'.threads = s.threads → s'.inherited = s.inherited → Alike s s' :=
    fun hc hw ht hi => ⟨⟨hc, hw, fun v => by rw [ht]⟩, hi⟩
  cases h with
  | addSymbolic h => exact .inl ⟨_, _, h⟩
  | addConstraint h =>
    obtain ⟨c, -, ⟨⟩⟩ := bind_eq_ok.mp h
    exact .inr (same rfl rfl rfl rfl)
  | pushFrame h =>
    rw [State.pushFrame] at h
    split at h
    · cases h
    · obtain ⟨x, hx, ⟨⟩⟩ := bind_eq_ok.mp h
      exact .inr (alike_of_insert hx rfl rfl rfl rfl rfl)
  | popFrame h =>
    obtain ⟨x, hx, h⟩ := bind_eq_ok.mp h
    split at h
    · cases h
    · cases h
      exact .inr (alike_of_insert hx rfl rfl rfl rfl rfl)
  | bindLocal h =>
    obtain ⟨x, hx, ⟨⟩⟩ := bind_eq_ok.mp h
    exact .inr (alike_of_insert hx rfl rfl rfl rfl rfl)
  | setLocal h =>
    obtain ⟨x, hx, h⟩ := bind_eq_ok.mp h
    split at h
    · cases h
    · split at h
      · cases h
      · cases h
        exact .inr (alike_of_insert hx rfl rfl rfl rfl rfl)
  | step h => exact .inr (alike_step h)
  | learn h => exact .inr (alike_withHeuristic h)
  | learnCallee h => exact .inr (alike_withHeuristic h)
  | forkStay h => exact .inr (alike_forkInto h).1
  | fork h => exact .inr (alike_forkInto h).2
  | leaveTree => exact .inr (same rfl rfl rfl rfl)
  | change => exact .inr (same rfl rfl rfl rfl)

/-- None of this work concerns who waits where or what is persistent. -/
theorem Work.agree (h : Work a s s') : Agree s s' := by
  obtain ⟨o, array, hadd⟩ | halike := h.cases
  · obtain ⟨-, rfl⟩ := of_addSymbolic hadd
    exact ⟨⟨rfl, rfl, fun _ => rfl⟩, rfl⟩
  · exact halike.agree

/-! ## Paths -/

/-- What happened on a path, besides work that concerns no queue. -/
inductive Path (a : Analysis) (r : State) : List Event → List ObjectId → State → Prop
  | start : Path a r [] [] r
  | event {past : List Event} {marks : List ObjectId} {s s' : State} {e : Event} :
      Path a r past marks s → Step a s e s' → Path a r (e :: past) marks s'
  | mark {past : List Event} {marks : List ObjectId} {s : State} (o : ObjectId) :
      Path a r past marks s → Path a r past (o :: marks) (s.markPersistent o)
  | work {past : List Event} {marks : List ObjectId} {s s' : State} :
      Path a r past marks s → Work a s s' → Path a r past marks s'

/-- A thread sleeps on a list after what happened since a state: it was put there and not
woken or ended since, or it slept there before and was never woken or ended. -/
def SleepsAfter (r : State) (v : ThreadUid) (list : Nat) : List Event → Prop
  | [] => r.waitsOn? v = some list
  | e :: past => e = .sleep v list ∨ ¬ e.Ends v list ∧ SleepsAfter r v list past
termination_by structural past => past

theorem inherited_mergeInto {b : Bool} (h : s.mergeInto t = .ok (s', b)) :
    s'.inherited = s.inherited := by
  obtain ⟨-, rfl⟩ | ⟨-, -, c, rfl⟩ := of_mergeInto h
  · rfl
  · rfl

theorem persistent_mergeInto {b : Bool} (h : s.mergeInto t = .ok (s', b)) :
    s'.persistent = s.persistent :=
  congrArg (·.1) (inherited_mergeInto h)

theorem inherited_removeWaiting : (s.removeWaiting list v).inherited = s.inherited := by
  rw [removeWaiting]
  split
  · rfl
  · rfl

theorem inherited_ended {x : Thread} : (s.ended v x).inherited = s.inherited := by
  rw [ended]
  cases x.waitsOn with
  | none => rfl
  | some list => exact inherited_removeWaiting

theorem inherited_foldl_wake (us : List ThreadUid) (s : State) :
    (us.foldl wake s).inherited = s.inherited := by
  induction us generalizing s with
  | nil => rfl
  | cons v us ih => exact ih (s.wake v)

/-- No event makes an object persistent, adds an input or takes a name. -/
theorem Step.inherited_eq {e : Event} (h : Step a s e s') : s'.inherited = s.inherited := by
  cases h with
  | create h =>
    obtain ⟨-, x, -, -, rfl⟩ := of_createThread h
    rfl
  | refuse _ => rfl
  | terminate h =>
    obtain ⟨-, ⟨-, rfl⟩ | ⟨x, -, rfl⟩⟩ := of_terminateThread h
    · rfl
    · exact inherited_ended
  | schedule h =>
    rw [State.schedule] at h
    split at h
    · cases h
    · split at h
      · cases h
        rfl
      · cases h
  | newList => rfl
  | sleep h =>
    obtain ⟨x, -, -, rfl⟩ := of_sleep h
    rfl
  | notifyOne h =>
    rw [State.notifyOne] at h
    split at h
    · cases h
      rfl
    · dsimp only at h
      split at h
      · cases h
      · cases h
        exact inherited_removeWaiting
  | notifyAll list =>
    rw [State.notifyAll]
    split
    · rfl
    · exact inherited_foldl_wake _ _
  | stay h => exact (alike_branch h).1.inherited
  | fork h => exact (alike_branch h).2.inherited
  | merge h => exact inherited_mergeInto h

theorem Step.persistent_eq {e : Event} (h : Step a s e s') : s'.persistent = s.persistent :=
  congrArg (·.1) h.inherited_eq

/-- The run lemma: on a path a state stays queued, its threads wait where they sleep after
what happened, and what is persistent was so before or was marked. -/
theorem Path.keeps {past : List Event} {marks : List ObjectId} (h : Path a r past marks s)
    (hr : r.Queued) : s.Queued ∧ (∀ v list, s.waitsOn? v = some list ↔ SleepsAfter r v list past) ∧
      ∀ o, o ∈ s.persistent ↔ o ∈ marks ∨ o ∈ r.persistent := by
  induction h with
  | start => exact ⟨hr, fun v list => .rfl, fun o => by simp⟩
  | event _ hstep ih =>
    obtain ⟨hqueued, hsleeps, hpersistent⟩ := ih
    obtain ⟨hqueued', hfollows⟩ := hstep.keeps hqueued
    refine ⟨hqueued', ?_, ?_⟩
    · intro v list
      rw [hfollows, hsleeps, SleepsAfter]
    · rw [hstep.persistent_eq]
      exact hpersistent
  | @mark past marks s o _ ih =>
    obtain ⟨hqueued, hsleeps, hpersistent⟩ := ih
    have hsame : SameQueues s (s.markPersistent o) := ⟨rfl, rfl, fun _ => rfl⟩
    refine ⟨hsame.queued hqueued, hsleeps, fun o' => ?_⟩
    rw [markPersistent, Std.ExtTreeSet.mem_insert, hpersistent, List.mem_cons,
      Std.compare_eq_iff_eq, eq_comm, or_assoc]
  | work _ hwork ih =>
    obtain ⟨hqueued, hsleeps, hpersistent⟩ := ih
    have hagree := hwork.agree
    refine ⟨hagree.queued hqueued, ?_, ?_⟩
    · intro v list
      rw [hagree.waitsOn?, hsleeps]
    · rw [hagree.persistent]
      exact hpersistent

/-! ## What a merge does not compare -/

theorem isOn_iff_mem {set : Std.ExtTreeSet ThreadUid} (h : s.waiting[list]? = some set) :
    s.IsOn list v ↔ v ∈ set := by
  rw [IsOn, Std.ExtTreeMap.getD_eq_getD_getElem?, h, Option.getD_some]

/-- A list of one state is a list of another one that has the same threads on it. -/
theorem Queued.getElem?_waiting (hs : s.Queued) (hon : ∀ list v, s.IsOn list v ↔ t.IsOn list v)
    {set : Std.ExtTreeSet ThreadUid} (hset : s.waiting[list]? = some set) :
    t.waiting[list]? = some set := by
  have hmem : ∀ v, v ∈ set ↔ t.IsOn list v := fun v => (isOn_iff_mem hset).symm.trans (hon list v)
  cases hset' : t.waiting[list]? with
  | some set' =>
    refine congrArg some (Std.ExtTreeSet.ext_mem fun v => ?_)
    rw [hmem, isOn_iff_mem hset']
  | none =>
    -- The list has a thread, which would be on it in the other state too.
    have hempty : set = ∅ := by
      refine Std.ExtTreeSet.ext_mem fun v => ⟨fun hv => ?_, fun hv => by simp at hv⟩
      obtain ⟨set', hsome, -⟩ := isOn_iff_exists.mp ((hmem v).mp hv)
      rw [hset'] at hsome
      cases hsome
    have hnonempty := hs.nonempty list set hset
    rw [hempty] at hnonempty
    simp at hnonempty

/-- Where the same threads wait on the same lists, the lists are the same. -/
theorem Queued.waiting_eq (hs : s.Queued) (ht : t.Queued)
    (h : ∀ v, s.waitsOn? v = t.waitsOn? v) : s.waiting = t.waiting := by
  have hon : ∀ list v, s.IsOn list v ↔ t.IsOn list v := by
    intro list v
    rw [hs.isOn_iff, ht.isOn_iff, h]
  refine Std.ExtTreeMap.ext_getElem? fun list => ?_
  cases hset : s.waiting[list]? with
  | some set => exact (hs.getElem?_waiting hon hset).symm
  | none =>
    cases hset' : t.waiting[list]? with
    | none => rfl
    | some set =>
      rw [ht.getElem?_waiting (fun list v => (hon list v).symm) hset'] at hset
      cases hset

theorem Queued.standing_eq (hs : s.Queued) (ht : t.Queued) (hkeys : s.threads.keys = t.threads.keys)
    (h : ∀ v, s.waitsOn? v = t.waitsOn? v) :
    s.threads[v]?.map Thread.standing = t.threads[v]?.map Thread.standing := by
  have hdomain := isSome_getElem?_eq_of_keys hkeys v
  have hwaits := h v
  cases hx : s.threads[v]? with
  | none =>
    have hy : t.threads[v]? = none := by
      rw [hx] at hdomain
      exact Option.not_isSome_iff_eq_none.mp (Bool.eq_false_iff.mp hdomain.symm)
    rw [hy]
  | some x =>
    obtain ⟨y, hy⟩ := exists_getElem?_of_keys hkeys hx
    rw [waitsOn?_of_getElem? hx, waitsOn?_of_getElem? hy] at hwaits
    rw [hy, Option.map_some, Option.map_some, Thread.standing, Thread.standing,
      hs.enabled v x hx, ht.enabled v y hy, hwaits]

/-- Paths that went apart from a state that was reached are merged into one on which the same
threads wait on the same lists, and the same objects are persistent, as on the first path.
That is so on the second path as well exactly if the same threads sleep on the same lists
after what happened on both, and the same objects became persistent. -/
theorem merged_takes_first {p : Factory} {id : Nat} {main : FunctionId} {σ σ' : Session a}
    {r₀ : State} {past₀ past past' : List Event} {marks₀ marks marks' : List ObjectId}
    (h₀ : initial p id main σ = (.ok r₀, σ')) (hr : Path a r₀ past₀ marks₀ r)
    (hs : Path a r past marks s) (ht : Path a r past' marks' t)
    (hu : s.mergeInto t = .ok (u, true)) :
    Agree s u ∧ (Agree t u ↔
      (∀ v list, SleepsAfter r v list past ↔ SleepsAfter r v list past') ∧
      ∀ o, o ∉ r.persistent → (o ∈ marks ↔ o ∈ marks')) := by
  obtain ⟨hr, -, -⟩ := hr.keeps (queued_initial h₀).1
  obtain ⟨hqueued, hsleeps, hpersistent⟩ := hs.keeps hr
  obtain ⟨hqueued', hsleeps', hpersistent'⟩ := ht.keeps hr
  obtain ⟨hmerged, -⟩ | ⟨-, hmergeable, -⟩ := of_mergeInto hu
  · cases hmerged
  have hfirst : Agree s u := ⟨sameQueues_mergeInto hu, persistent_mergeInto hu⟩
  refine ⟨hfirst, ?_, ?_⟩
  · intro hsecond
    refine ⟨fun v list => ?_, fun o ho => ?_⟩
    · rw [← hsleeps, ← hsleeps', ← hfirst.waitsOn?, hsecond.waitsOn?]
    · have hsame := hpersistent o
      rw [← hfirst.persistent, hsecond.persistent, hpersistent'] at hsame
      simpa [ho] using hsame.symm
  · rintro ⟨hsleeping, hmarked⟩
    have hwaits : ∀ v, t.waitsOn? v = s.waitsOn? v := by
      intro v
      refine Option.ext fun list => ?_
      rw [hsleeps', hsleeps, hsleeping]
    refine ⟨⟨hfirst.current.trans (current_eq_of_mergeable hmergeable), ?_, fun v => ?_⟩, ?_⟩
    · exact hfirst.waiting.trans (hqueued'.waiting_eq hqueued hwaits).symm
    · refine (hfirst.standing v).trans ?_
      exact (hqueued'.standing_eq hqueued (keys_eq_of_mergeable hmergeable).symm hwaits).symm
    · refine hfirst.persistent.trans (Std.ExtTreeSet.ext_mem fun o => ?_)
      rw [hpersistent, hpersistent']
      by_cases ho : o ∈ r.persistent
      · simp [ho]
      · simp [ho, hmarked o ho]

/-! ## One thread -/

/-- The state that branched and the new one are like the first state of a program. -/
theorem branch_initial (x : Thread) :
    let r : State := { id := 1, threads := (∅ : Std.ExtTreeMap ThreadUid Thread).insert .main x }
    r.branch 2 = .ok ({ r with depth := 1 }, { r with depth := 1, id := 2 }) := rfl

theorem initial_off {f : FunctionId} (hm : a.module.Built) (hdef : a.module.isDefined f = true) :
    ∃ x : Thread, x.enabled = true ∧ x.waitsOn = none ∧
      initial offFactory 1 f ({} : Session a) =
        (.ok { id := 1, threads := (∅ : Std.ExtTreeMap ThreadUid Thread).insert .main x }, {}) := by
  obtain ⟨x, hstart⟩ := startThread_off hm hdef {}
  obtain ⟨he, hw⟩ := startThread_awake hstart
  refine ⟨x, he, hw, ?_⟩
  simp only [initial, bind, StateT.bind, hstart]
  rfl

/-- States of one thread that is at the same place in both can be merged. -/
theorem mergeInto_one {x y : Thread} (hx : s.threads.toList = [(v, x)])
    (hy : t.threads.toList = [(v, y)]) (hpc : x.pc = y.pc) (hstack : x.stack = y.stack)
    (hcurrent : s.current = t.current) (hsymbolics : s.symbolics = t.symbolics)
    (hmemory : s.memory = t.memory) (hs : s.condition = ∅) (ht : t.condition = ∅) :
    ∃ u, s.mergeInto t = .ok (u, true) := by
  have hshape : ∀ (l : List Frame) (f g : Frame), (f, g) ∈ l.zip l → f.sameShape g = true := by
    intro l f g h
    induction l with
    | nil => cases h
    | cons d l ih =>
      rcases List.mem_cons.mp h with hd | hl
      · cases hd
        simp [Frame.sameShape]
      · exact ih hl
  have hkeys : s.threads.keys = t.threads.keys := by
    rw [← Std.ExtTreeMap.map_fst_toList_eq_keys, ← Std.ExtTreeMap.map_fst_toList_eq_keys, hx, hy]
    rfl
  have hmergeable : s.mergeable t = true := by
    simpa [mergeable, hx, hy, hkeys, Thread.samePosition, hpc, hstack, hcurrent,
      hsymbolics, hmemory, AddressSpace.sameObjects] using hshape y.stack
  rw [mergeInto_of_mergeable hmergeable, mergedCondition, mergeGuard, hs, ht]
  exact ⟨_, rfl⟩

/-- Both paths end with the main thread asleep on the same list. -/
theorem merged_takes_first_asleep : ∃ m, Nvm.directCall.build = .ok m ∧ ∀ pointsTo,
    ∃ r s t u : State, initial offFactory 1 ⟨1⟩ ({} : Session ⟨m, pointsTo⟩) = (.ok r, {}) ∧
      Path ⟨m, pointsTo⟩ r [.sleep .main 1, .branch] [] s ∧
      Path ⟨m, pointsTo⟩ r [.sleep .main 1, .branch] [] t ∧
      s.mergeInto t = .ok (u, true) ∧ Agree s u ∧ Agree t u := by
  obtain ⟨m, hl, hdef⟩ := Ir.Listing.exists_build (l := Nvm.directCall)
    (p := fun m => m.isDefined ⟨1⟩ = true) (by decide +kernel)
  refine ⟨m, hl, fun pointsTo => ?_⟩
  obtain ⟨x, he, -, hinitial⟩ := initial_off (a := ⟨m, pointsTo⟩) (Ir.Listing.build_built hl) hdef
  let r : State := { id := 1, threads := (∅ : Std.ExtTreeMap ThreadUid Thread).insert .main x }
  let s : State := (park { r with depth := 1 } 1 x).handOver
  let t : State := (park { r with depth := 1, id := 2 } 1 x).handOver
  have hs : Path ⟨m, pointsTo⟩ r [.sleep .main 1, .branch] [] s :=
    (Path.start.event (.stay (branch_initial x))).event
      (.sleep (sleep_of_enabled (by decide) rfl he))
  have ht : Path ⟨m, pointsTo⟩ r [.sleep .main 1, .branch] [] t :=
    (Path.start.event (.fork (branch_initial x))).event
      (.sleep (sleep_of_enabled (by decide) rfl he))
  obtain ⟨u, hu⟩ := mergeInto_one (s := s) (t := t) rfl rfl rfl rfl rfl rfl rfl rfl rfl
  obtain ⟨hagree, hboth⟩ := merged_takes_first hinitial .start hs ht hu
  exact ⟨r, s, t, u, hinitial, hs, ht, hu, hagree, hboth.mpr ⟨fun _ _ => .rfl, fun _ _ => .rfl⟩⟩

/-- The main thread sleeps on the second path only, where an object became persistent.  The
paths are merged all the same. -/
theorem merged_loses_second : ∃ m, Nvm.directCall.build = .ok m ∧ ∀ pointsTo,
    ∃ r s t u : State, initial offFactory 1 ⟨1⟩ ({} : Session ⟨m, pointsTo⟩) = (.ok r, {}) ∧
      Path ⟨m, pointsTo⟩ r [.branch] [] s ∧
      Path ⟨m, pointsTo⟩ r [.sleep .main 1, .branch] [⟨5⟩] t ∧
      s.mergeInto t = .ok (u, true) ∧
      s.threads[ThreadUid.main]?.map Thread.standing = some (true, none) ∧
      t.threads[ThreadUid.main]?.map Thread.standing = some (false, some 1) ∧
      s.waiting ≠ t.waiting ∧ s.persistent ≠ t.persistent := by
  obtain ⟨m, hl, hdef⟩ := Ir.Listing.exists_build (l := Nvm.directCall)
    (p := fun m => m.isDefined ⟨1⟩ = true) (by decide +kernel)
  refine ⟨m, hl, fun pointsTo => ?_⟩
  obtain ⟨x, he, hw, hinitial⟩ := initial_off (a := ⟨m, pointsTo⟩) (Ir.Listing.build_built hl) hdef
  let r : State := { id := 1, threads := (∅ : Std.ExtTreeMap ThreadUid Thread).insert .main x }
  let s : State := { r with depth := 1 }
  let t : State := (park { r with depth := 1, id := 2 } 1 x).handOver.markPersistent ⟨5⟩
  have hs : Path ⟨m, pointsTo⟩ r [.branch] [] s := Path.start.event (.stay (branch_initial x))
  have ht : Path ⟨m, pointsTo⟩ r [.sleep .main 1, .branch] [⟨5⟩] t :=
    ((Path.start.event (.fork (branch_initial x))).event
      (.sleep (sleep_of_enabled (by decide) rfl he))).mark ⟨5⟩
  obtain ⟨u, hu⟩ := mergeInto_one (s := s) (t := t) rfl rfl rfl rfl rfl rfl rfl rfl rfl
  refine ⟨r, s, t, u, hinitial, hs, ht, hu, ?_, rfl, ?_, ?_⟩
  · show some x.standing = _
    rw [Thread.standing, he, hw]
  · intro h
    have hlist := congrArg (fun waiting => waiting[1]?.isSome) h
    cases hlist
  · intro h
    have hmark := congrArg (fun persistent => persistent.contains ⟨5⟩) h
    cases hmark

end PmemPaths.Execution.State
