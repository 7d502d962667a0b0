import PmemPaths.Proofs.Execution.Waiting
import PmemPaths.Proofs.Nvm.Runs

/-!
# Threads that sleep

A state that was reached from the start of a program comes with what happened to it, the
last event first (`State.Reached`).  From the events alone one tells which list a thread
sleeps on: the one it was put on last, unless it was woken or ended since
(`State.SleepsOn`).

Every event keeps a state queued, and what a thread waits on follows the events
(`State.Step.keeps`).  So threads and waiting lists tell the same in all states that can be
reached, and waking a list enables the threads that sleep on it (`State.Reached.queues_agree`).
-/

namespace PmemPaths.Execution

open PmemPaths.Ir (FunctionId ValueId)
open PmemPaths.Nvm (Analysis CheckedM Factory Session)
open PmemPaths.Symbolic (Expr)

/-- Whether a thread is enabled, and what it waits on. -/
def Thread.standing (t : Thread) : Bool × Option Nat := (t.enabled, t.waitsOn)

namespace State

variable {a : Analysis} {s s' t : State} {u v : ThreadUid} {list l : Nat}

/-! ## Changes that concern no queue -/

/-- The current thread, the waiting lists and the standing of the threads are as before. -/
structure SameQueues (s s' : State) : Prop where
  current : s'.current = s.current
  waiting : s'.waiting = s.waiting
  standing : ∀ u : ThreadUid, s'.threads[u]?.map Thread.standing = s.threads[u]?.map Thread.standing

theorem SameQueues.waitsOn? (h : SameQueues s s') : s'.waitsOn? u = s.waitsOn? u := by
  have hbind : ∀ x : Option Thread, x.bind (·.waitsOn) = (x.map Thread.standing).bind (·.2) := by
    intro x
    cases x with
    | none => rfl
    | some t => rfl
  rw [State.waitsOn?, State.waitsOn?, hbind, hbind, h.standing]

theorem SameQueues.queued (hsame : SameQueues s s') (h : s.Queued) : s'.Queued where
  current := by
    have hcurrent := h.current
    rw [Std.ExtTreeMap.mem_iff_isSome_getElem?, ← Option.isSome_map (f := Thread.standing)]
      at hcurrent ⊢
    rw [hsame.current, hsame.standing]
    exact hcurrent
  enabled u x hx := by
    have hstanding := hsame.standing u
    rw [hx, Option.map_some] at hstanding
    obtain ⟨y, hy, hxy⟩ := Option.map_eq_some_iff.mp hstanding.symm
    obtain ⟨henabled, hwaits⟩ := Prod.mk.inj hxy
    rw [← henabled, ← hwaits]
    exact h.enabled u y hy
  isOn_iff l u := by
    rw [hsame.waitsOn?, ← h.isOn_iff, IsOn, hsame.waiting, IsOn]
  nonempty l set hl := h.nonempty l set (hsame.waiting ▸ hl)

theorem standing_foldl_merge (guard : Expr) :
    ∀ (l : List ((ThreadUid × Thread) × ThreadUid × Thread))
      (m : Std.ExtTreeMap ThreadUid Thread),
      (∀ e ∈ l, m[e.1.1]?.map Thread.standing = some e.1.2.standing) →
      (l.foldl (fun m ((u, x), (_, y)) => m.insert u (x.merge guard y)) m)[u]?.map
        Thread.standing = m[u]?.map Thread.standing
  | [], _, _ => rfl
  | e :: l, m, hm => by
      -- Inserting a merged thread changes the standing of none.
      have hinsert : ∀ v : ThreadUid, (m.insert e.1.1 (e.1.2.merge guard e.2.2))[v]?.map
          Thread.standing = m[v]?.map Thread.standing := by
        intro v
        rw [Std.ExtTreeMap.getElem?_insert]
        simp only [Std.compare_eq_iff_eq]
        split
        · next h =>
          rw [← h, hm e List.mem_cons_self]
          rfl
        · rfl
      have hrest := standing_foldl_merge guard l (m.insert e.1.1 (e.1.2.merge guard e.2.2))
        fun e' he' => (hinsert e'.1.1).trans (hm e' (List.mem_cons_of_mem e he'))
      exact hrest.trans (hinsert u)

theorem sameQueues_mergeInto {b : Bool} (h : s.mergeInto t = .ok (s', b)) : SameQueues s s' := by
  obtain ⟨-, rfl⟩ | ⟨-, -, c, rfl⟩ := of_mergeInto h
  · exact ⟨rfl, rfl, fun _ => rfl⟩
  · refine ⟨rfl, rfl, ?_⟩
    intro u
    refine standing_foldl_merge _ _ _ ?_
    intro e he
    have hmem : e.1 ∈ s.threads.toList := (List.of_mem_zip he).1
    rw [Std.ExtTreeMap.mem_toList_iff_getElem?_eq_some.mp hmem]
    rfl

theorem of_branch {id : Nat} {child : State} (h : s.branch id = .ok (s', child)) :
    SameQueues s s' ∧ SameQueues s child := by
  rw [branch] at h
  split at h
  · cases h
  · cases h
    exact ⟨⟨rfl, rfl, fun _ => rfl⟩, ⟨rfl, rfl, fun _ => rfl⟩⟩

/-! ## What happens to threads -/

/-- What happens to the threads and the waiting lists of a state. -/
inductive Event where
  /-- A thread is to be created. -/
  | create (u : ThreadUid)
  /-- A thread is ended. -/
  | terminate (u : ThreadUid)
  /-- A thread becomes the current one. -/
  | schedule (u : ThreadUid)
  /-- A new list is asked for. -/
  | newList
  /-- The current thread is put on a list. -/
  | sleep (u : ThreadUid) (list : Nat)
  /-- A thread on a list is to be woken. -/
  | notifyOne (list : Nat) (u : ThreadUid)
  /-- All threads on a list are woken. -/
  | notifyAll (list : Nat)
  /-- The path goes on in two states. -/
  | branch
  /-- Another path is to be merged into this one. -/
  | merge

/-- A thread that slept on a list does so no more: it is woken, ended, or put to sleep
again. -/
def Event.Ends (u : ThreadUid) (list : Nat) : Event → Prop
  | .terminate v => v = u
  | .sleep v _ => v = u
  | .notifyOne l v => l = list ∧ v = u
  | .notifyAll l => l = list
  | .create _ | .schedule _ | .newList | .branch | .merge => False

/-- An event that puts no thread to sleep and ends no sleep. -/
def Event.IsIdle : Event → Prop
  | .create _ | .schedule _ | .newList | .branch | .merge => True
  | .terminate _ | .sleep _ _ | .notifyOne _ _ | .notifyAll _ => False

/-- The last sleep of a thread was on a list, and the thread was neither woken nor ended
since.  The last event comes first. -/
def SleepsOn (u : ThreadUid) (list : Nat) : List Event → Prop
  | [] => False
  | e :: past => e = .sleep u list ∨ ¬ e.Ends u list ∧ SleepsOn u list past
termination_by structural past => past

/-- An operation that goes through.  A thread may be created in any function, by any
factory and in any session, and any other path may be merged. -/
inductive Step (a : Analysis) : State → Event → State → Prop
  | create {s s' : State} {p : Factory} {tid : Nat} {f : FunctionId} {σ σ' : Session a}
      {u : ThreadUid} : createThread p s tid f σ = .ok (.ok (s', u), σ') →
      Step a s (.create u) s'
  /-- The thread cannot start. -/
  | refuse {s : State} {p : Factory} {tid : Nat} {f : FunctionId} {σ σ' : Session a}
      {e : Failure} : createThread p s tid f σ = .ok (.error e, σ') →
      Step a s (.create ⟨s.current.pid, tid⟩) s
  | terminate {s s' : State} {u : ThreadUid} {b : Bool} :
      s.terminateThread u = .ok (s', b) → Step a s (.terminate u) s'
  | schedule {s s' : State} {u : ThreadUid} :
      s.schedule u = .ok s' → Step a s (.schedule u) s'
  | newList {s : State} : Step a s .newList s.newWaitingList.1
  | sleep {s s' : State} {list : Nat} :
      s.sleep list = .ok s' → Step a s (.sleep s.current list) s'
  | notifyOne {s s' : State} {list : Nat} {u : ThreadUid} {b : Bool} :
      s.notifyOne list u = .ok (s', b) → Step a s (.notifyOne list u) s'
  | notifyAll {s : State} (list : Nat) : Step a s (.notifyAll list) (s.notifyAll list).1
  /-- The path goes on in the state that branched. -/
  | stay {s s' child : State} {id : Nat} : s.branch id = .ok (s', child) → Step a s .branch s'
  /-- The path goes on in the new state. -/
  | fork {s s' child : State} {id : Nat} : s.branch id = .ok (s', child) →
      Step a s .branch child
  | merge {s s' t : State} {b : Bool} : s.mergeInto t = .ok (s', b) → Step a s .merge s'

/-- A state that was reached from the start of a program, with what happened to it. -/
inductive Reached (a : Analysis) : List Event → State → Prop
  | initial {p : Factory} {id : Nat} {main : FunctionId} {σ σ' : Session a} {s : State} :
      initial p id main σ = (.ok s, σ') → Reached a [] s
  | step {past : List Event} {s s' : State} {e : Event} :
      Reached a past s → Step a s e s' → Reached a (e :: past) s'

/-! ## What each event keeps -/

/-- What a thread waits on after an event. -/
def Follows (s : State) (e : Event) (s' : State) : Prop :=
  ∀ u list, s'.waitsOn? u = some list ↔
    e = .sleep u list ∨ ¬ e.Ends u list ∧ s.waitsOn? u = some list

theorem follows_of_idle {e : Event} (he : e.IsIdle) (h : ∀ u, s'.waitsOn? u = s.waitsOn? u) :
    s.Follows e s' := by
  intro u list
  rw [h]
  cases e with
  | create | schedule | newList | branch | merge => simp [Event.Ends]
  | terminate | sleep | notifyOne | notifyAll => cases he

theorem SameQueues.keeps {e : Event} (hsame : SameQueues s s') (he : e.IsIdle) (h : s.Queued) :
    s'.Queued ∧ s.Follows e s' :=
  ⟨hsame.queued h, follows_of_idle he fun _ => hsame.waitsOn?⟩

/-- Waking threads is an event that ends their sleep. -/
theorem Wakes.keeps {us : List ThreadUid} {e : Event} (hw : s.Wakes us s')
    (hsleep : ∀ u list, e ≠ .sleep u list)
    (hends : ∀ u list, s.waitsOn? u = some list → (e.Ends u list ↔ u ∈ us)) (h : s.Queued) :
    s'.Queued ∧ s.Follows e s' := by
  refine ⟨hw.queued h, ?_⟩
  intro u list
  rw [hw.waitsOn?]
  have hends' := hends u list
  simp only [hsleep u list, false_or]
  by_cases hu : u ∈ us
  · rw [if_pos hu]
    constructor
    · intro hnone
      cases hnone
    · rintro ⟨hnot, hwaits⟩
      exact absurd ((hends' hwaits).mpr hu) hnot
  · rw [if_neg hu]
    constructor
    · intro hwaits
      exact ⟨fun he => hu ((hends' hwaits).mp he), hwaits⟩
    · exact And.right

/-- Each event keeps a state queued, and ends or begins sleep as told. -/
theorem Step.keeps {e : Event} (hstep : Step a s e s') (h : s.Queued) :
    s'.Queued ∧ s.Follows e s' := by
  cases hstep with
  | create hcreate =>
    obtain ⟨hnew, t, he, hw, rfl⟩ := of_createThread hcreate
    exact ⟨h.create hnew he hw, follows_of_idle trivial fun _ => waitsOn?_insert_new hnew hw⟩
  | refuse hcreate => exact SameQueues.keeps ⟨rfl, rfl, fun _ => rfl⟩ trivial h
  | @terminate _ u b hend =>
    obtain ⟨hne, ⟨hnone, rfl⟩ | ⟨t, ht, rfl⟩⟩ := of_terminateThread hend
    · refine ⟨h, ?_⟩
      intro v list
      -- A thread that does not exist does not sleep.
      have hnot := waitsOn?_of_missing hnone
      simp only [Event.Ends, reduceCtorEq, false_or]
      constructor
      · intro hwaits
        refine ⟨?_, hwaits⟩
        rintro rfl
        rw [hnot] at hwaits
        cases hwaits
      · exact And.right
    · refine ⟨h.ended ht hne, ?_⟩
      intro v list
      rw [waitsOn?_ended]
      simp only [Event.Ends, reduceCtorEq, false_or]
      by_cases hv : v = u
      · simp [hv]
      · simp [hv, Ne.symm hv]
  | schedule hschedule =>
    rw [State.schedule] at hschedule
    split at hschedule
    · cases hschedule
    · next t ht =>
      split at hschedule
      · cases hschedule
        refine ⟨⟨?_, h.enabled, h.isOn_iff, h.nonempty⟩, follows_of_idle trivial fun _ => rfl⟩
        rw [Std.ExtTreeMap.mem_iff_isSome_getElem?]
        exact ht ▸ rfl
      · cases hschedule
  | newList => exact SameQueues.keeps ⟨rfl, rfl, fun _ => rfl⟩ trivial h
  | @sleep _ list hsleep =>
    obtain ⟨t, ht, he, rfl⟩ := of_sleep hsleep
    refine ⟨(h.park ht he list).handOver, ?_⟩
    intro v l
    show (s.park list t).waitsOn? v = some l ↔ _
    rw [waitsOn?_park]
    by_cases hv : v = s.current
    · simp [hv, Event.Ends]
    · simp [hv, Ne.symm hv, Event.Ends]
  | @notifyOne _ list u b hnotify =>
    by_cases hon : s.IsOn list u
    · rw [h.notifyOne hon] at hnotify
      cases hnotify
      refine (h.wakes_notifyOne hon).keeps ?_ ?_ h
      · intro v l hsleep
        cases hsleep
      · intro v l hwaits
        rw [List.mem_singleton]
        constructor
        · exact fun hends => hends.2.symm
        · rintro rfl
          rw [(h.isOn_iff list v).mp hon] at hwaits
          exact ⟨Option.some.inj hwaits, rfl⟩
    · rw [notifyOne_of_not_isOn hon] at hnotify
      cases hnotify
      refine ⟨h, ?_⟩
      intro v l
      simp only [Event.Ends, reduceCtorEq, false_or]
      constructor
      · intro hwaits
        refine ⟨?_, hwaits⟩
        rintro ⟨rfl, rfl⟩
        exact hon ((h.isOn_iff list u).mpr hwaits)
      · exact And.right
  | notifyAll list =>
    obtain ⟨us, hwakes, hmem⟩ := h.wakes_notifyAll list
    refine hwakes.keeps ?_ ?_ h
    · intro u l hsleep
      cases hsleep
    · intro u l hwaits
      rw [hmem, hwaits, Option.some.injEq]
      exact eq_comm
  | stay hbranch => exact (of_branch hbranch).1.keeps trivial h
  | fork hbranch => exact (of_branch hbranch).2.keeps trivial h
  | merge hmerge => exact (sameQueues_mergeInto hmerge).keeps trivial h

/-! ## States that were reached -/

theorem of_initial {p : Factory} {id : Nat} {main : FunctionId} {σ σ' : Session a}
    (h : initial p id main σ = (.ok s, σ')) : ∃ t, startThread p main σ = (.ok t, σ') ∧
      s = { id, threads := (∅ : Std.ExtTreeMap ThreadUid Thread).insert .main t } := by
  have hrun : initial p id main σ = ((startThread p main σ).1.map fun t =>
      { id, threads := (∅ : Std.ExtTreeMap ThreadUid Thread).insert .main t },
      (startThread p main σ).2) := rfl
  rw [hrun] at h
  generalize startThread p main σ = made at h
  obtain ⟨r, σ₁⟩ := made
  cases r with
  | error e => cases h
  | ok t =>
    cases h
    exact ⟨t, rfl, rfl⟩

theorem queued_initial {p : Factory} {id : Nat} {main : FunctionId} {σ σ' : Session a}
    (h : initial p id main σ = (.ok s, σ')) : s.Queued ∧ ∀ u, s.waitsOn? u = none := by
  obtain ⟨t, hstart, rfl⟩ := of_initial h
  obtain ⟨he, hw⟩ := startThread_awake hstart
  have hget : ∀ v : ThreadUid, ((∅ : Std.ExtTreeMap ThreadUid Thread).insert .main t)[v]? =
      if .main = v then some t else none := by
    intro v
    simp [Std.ExtTreeMap.getElem?_insert]
  have hnone : ∀ v, waitsOn? { id, threads := (∅ : Std.ExtTreeMap ThreadUid Thread).insert .main t }
      v = none := by
    intro v
    rw [waitsOn?, hget]
    split
    · exact hw
    · rfl
  refine ⟨⟨Std.ExtTreeMap.mem_insert_self, ?_, ?_, ?_⟩, hnone⟩
  · intro v t' ht'
    rw [hget] at ht'
    split at ht'
    · cases ht'
      rw [he, hw]
      rfl
    · cases ht'
  · intro list v
    rw [hnone]
    simp [IsOn, Std.ExtTreeMap.getD_eq_getD_getElem?]
  · intro list set hset
    simp at hset

/-- The run lemma: a state that was reached is queued, and its threads wait where the
events say they sleep. -/
theorem Reached.queued {past : List Event} (h : Reached a past s) :
    s.Queued ∧ ∀ u list, s.waitsOn? u = some list ↔ SleepsOn u list past := by
  induction h with
  | initial hstart =>
    obtain ⟨hqueued, hnone⟩ := queued_initial hstart
    refine ⟨hqueued, ?_⟩
    intro u list
    rw [hnone, SleepsOn]
    simp
  | step _ hstep ih =>
    obtain ⟨hqueued, hsleeps⟩ := ih
    obtain ⟨hqueued', hfollows⟩ := hstep.keeps hqueued
    refine ⟨hqueued', ?_⟩
    intro u list
    rw [hfollows, hsleeps, SleepsOn]

/-- In every state that was reached the current thread exists, and what the threads tell
of waiting is what the lists tell.  So no thread is found to wait elsewhere, waking a list
enables the threads that sleep on it and changes no other, and a thread that is put to
sleep leaves the state to one that can run, if any can. -/
theorem Reached.queues_agree {past : List Event} (h : Reached a past s) :
    s.current ∈ s.threads ∧
    (∀ (u : ThreadUid) (t : Thread), s.threads[u]? = some t →
      (t.enabled = false ↔ ∃ list, t.waitsOn = some list) ∧
      (∀ list, t.waitsOn = some list ↔ s.IsOn list u) ∧
      ∀ list list', s.IsOn list u → s.IsOn list' u → list' = list) ∧
    (∀ (list : Nat) (set : Std.ExtTreeSet ThreadUid), s.waiting[list]? = some set →
      set.isEmpty = false ∧ ∀ u ∈ set, u ∈ s.threads) ∧
    (∀ list u, ∃ r, s.notifyOne list u = .ok r) ∧
    (∀ (list : Nat) (u : ThreadUid),
      (SleepsOn u list past → ∃ t, s.threads[u]? = some t ∧ t.enabled = false ∧
        (s.notifyAll list).1.threads[u]? = some t.woken) ∧
      (¬ SleepsOn u list past → (s.notifyAll list).1.threads[u]? = s.threads[u]?)) ∧
    ∀ list s', s.sleep list = .ok s' →
      (∃ (v : ThreadUid) (t : Thread), s'.threads[v]? = some t ∧ t.enabled = true) →
      ∃ t, s'.threads[s'.current]? = some t ∧ t.enabled = true := by
  obtain ⟨hqueued, hsleeps⟩ := h.queued
  refine ⟨hqueued.current, ?threads, ?lists, ?one, ?all, ?sleep⟩
  case threads =>
    intro u t ht
    have hwaits : ∀ list, t.waitsOn = some list ↔ s.IsOn list u := by
      intro list
      rw [hqueued.isOn_iff, waitsOn?_of_getElem? ht]
    refine ⟨?_, hwaits, ?_⟩
    · rw [hqueued.enabled u t ht, ← Option.isSome_iff_exists]
      simp
    · intro list list' hon hon'
      rw [← hwaits] at hon hon'
      exact Option.some.inj (hon'.symm.trans hon)
  case lists =>
    intro list set hset
    refine ⟨hqueued.nonempty list set hset, ?_⟩
    intro u hu
    have hon : s.IsOn list u := isOn_iff_exists.mpr ⟨set, hset, hu⟩
    exact mem_threads_of_waitsOn? ((hqueued.isOn_iff list u).mp hon)
  case one =>
    intro list u
    by_cases hon : s.IsOn list u
    · exact ⟨_, hqueued.notifyOne hon⟩
    · exact ⟨_, notifyOne_of_not_isOn hon⟩
  case all =>
    intro list u
    obtain ⟨us, hwakes, hmem⟩ := hqueued.wakes_notifyAll list
    rw [← hsleeps, ← hmem, hwakes.threads]
    refine ⟨?_, ?_⟩
    · intro hu
      obtain ⟨t, ht, hwaits⟩ := Option.bind_eq_some_iff.mp ((hmem u).mp hu)
      refine ⟨t, ht, ?_, ?_⟩
      · rw [hqueued.enabled u t ht, hwaits]
        rfl
      · rw [if_pos hu, ht, Option.map_some]
    · intro hu
      rw [if_neg hu]
  case sleep =>
    rintro list s' hsleep ⟨v, t, ht, he⟩
    obtain ⟨t', -, -, rfl⟩ := of_sleep hsleep
    exact handOver_enabled (s := s.park list t') ht he

/-- A factory for threads without priorities. -/
def offFactory : Factory where
  settings := { strategy := .off }
  initial := ⟨0, { allocs := ∅ }⟩
  tables := none

theorem startThread_off (hm : a.module.Built) {f : FunctionId}
    (hdef : a.module.isDefined f = true) (σ : Session a) :
    ∃ t, startThread offFactory f σ = (.ok t, σ) := by
  obtain ⟨first, hfirst⟩ := hm.exists_firstInstruction hdef
  obtain ⟨fn, hf, hblocks⟩ := Ir.Module.isDefined_iff.mp hdef
  have hbody : fn.isDeclaration = false := List.isEmpty_eq_false_iff.mpr hblocks
  have hcreate : offFactory.create f σ = ((.ok .off : Except Failure Nvm.Heuristic), σ) := by
    rw [Factory.create, hf]
    simp only [hbody, hfirst]
    rfl
  refine ⟨.start a.module f first .off, ?_⟩
  simp only [startThread, bind, StateT.bind, hcreate, hfirst]
  rfl

/-- The main thread goes to sleep on a list and another one runs. -/
theorem Reached.queues_agree_sleeper : ∃ m, Nvm.directCall.build = .ok m ∧ ∀ pointsTo,
    ∃ past s, Reached ⟨m, pointsTo⟩ past s ∧ s.current ∈ s.threads ∧ SleepsOn .main 7 past ∧
      ∃ t, s.threads[ThreadUid.main]? = some t ∧ t.enabled = false ∧
        (s.notifyAll 7).1.threads[ThreadUid.main]? = some t.woken := by
  obtain ⟨m, hl, hdef⟩ := Ir.Listing.exists_build (l := Nvm.directCall)
    (p := fun m => m.isDefined ⟨1⟩ = true) (by decide +kernel)
  refine ⟨m, hl, ?_⟩
  intro pointsTo
  obtain ⟨t, hstart⟩ := startThread_off (a := ⟨m, pointsTo⟩) (Ir.Listing.build_built hl) hdef {}
  obtain ⟨he, -⟩ := startThread_awake hstart
  have hinitial : State.initial offFactory 1 ⟨1⟩ ({} : Session ⟨m, pointsTo⟩) =
      (.ok { id := 1, threads := (∅ : Std.ExtTreeMap ThreadUid Thread).insert .main t }, {}) := by
    simp only [State.initial, bind, StateT.bind, hstart]
    rfl
  have hcreated := (Reached.initial hinitial).step
    (.create (createThread_run offFactory _ 1 ⟨1⟩ {} |>.trans (by rw [hstart]; rfl)))
  have hasleep := hcreated.step (.sleep (sleep_of_enabled (by decide : 7 ≠ 0) rfl he))
  have hsleeps : SleepsOn .main 7 [.sleep .main 7, .create ⟨1, 1⟩] := .inl rfl
  obtain ⟨hcurrent, -, -, -, hall, -⟩ := hasleep.queues_agree
  exact ⟨_, _, hasleep, hcurrent, hsleeps, (hall 7 .main).1 hsleeps⟩

end State

end PmemPaths.Execution
