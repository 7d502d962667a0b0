import PmemPaths.Proofs.Execution.Merge
import PmemPaths.Proofs.Execution.RoundRobin

/-!
# Threads and the lists they wait on

That a thread waits is told three times: it is not enabled, it knows its list, and the list
has it.  A state in which the three agree, the current thread exists and no list is empty
is *queued* (`State.Queued`).  Each operation on threads and lists keeps a state queued.

What a thread waits on follows from what happened: it is the list it was put to sleep on
last, unless it was woken or ended since (`State.SleepsOn`).  In a state that was reached
from the start of a program both descriptions agree (`State.Reached.queues_agree`).
-/

namespace PmemPaths.Execution

open PmemPaths.Ir (FunctionId)
open PmemPaths.Nvm (Analysis CheckedM Factory Session)

/-- The thread once it is woken. -/
def Thread.woken (t : Thread) : Thread := { t with enabled := true, waitsOn := none }

namespace State

variable {s s' : State} {t : Thread} {u v : ThreadUid} {list l : Nat}

/-! ## Who waits -/

/-- The list that a thread waits on, as the thread knows it. -/
def waitsOn? (s : State) (u : ThreadUid) : Option Nat := s.threads[u]?.bind (·.waitsOn)

/-- A waiting list has a thread. -/
def IsOn (s : State) (list : Nat) (u : ThreadUid) : Prop := u ∈ s.waiting.getD list ∅

/-- The threads and the waiting lists tell the same. -/
structure Queued (s : State) : Prop where
  /-- The current thread exists. -/
  current : s.current ∈ s.threads
  /-- A thread is enabled unless it knows a list. -/
  enabled : ∀ (u : ThreadUid) (t : Thread), s.threads[u]? = some t →
    t.enabled = t.waitsOn.isNone
  /-- A list has the threads that know it. -/
  isOn_iff : ∀ list u, s.IsOn list u ↔ s.waitsOn? u = some list
  /-- No list is empty. -/
  nonempty : ∀ (list : Nat) (set : Std.ExtTreeSet ThreadUid), s.waiting[list]? = some set →
    set.isEmpty = false

theorem waitsOn?_of_getElem? (h : s.threads[u]? = some t) : s.waitsOn? u = t.waitsOn := by
  rw [waitsOn?, h, Option.bind_some]

theorem waitsOn?_of_missing (h : s.threads[u]? = none) : s.waitsOn? u = none := by
  rw [waitsOn?, h, Option.bind_none]

/-- Only a thread that exists waits. -/
theorem mem_threads_of_waitsOn? (h : s.waitsOn? u = some list) : u ∈ s.threads := by
  obtain ⟨t, ht, -⟩ := Option.bind_eq_some_iff.mp h
  rw [Std.ExtTreeMap.mem_iff_isSome_getElem?, ht]
  rfl

theorem isOn_iff_exists : s.IsOn list u ↔ ∃ set, s.waiting[list]? = some set ∧ u ∈ set := by
  rw [IsOn, Std.ExtTreeMap.getD_eq_getD_getElem?]
  cases s.waiting[list]? with
  | none => simp
  | some set => simp

theorem isOn_iff_contains : s.IsOn list u ↔ (s.waiting.getD list ∅).contains u = true :=
  Std.ExtTreeSet.mem_iff_contains

/-- An enabled thread waits on no list. -/
theorem Queued.waitsOn?_of_enabled (h : s.Queued) (ht : s.threads[u]? = some t)
    (he : t.enabled = true) : s.waitsOn? u = none := by
  have hnone : t.waitsOn.isNone = true := by rw [← h.enabled u t ht, he]
  rw [waitsOn?_of_getElem? ht, Option.isNone_iff_eq_none.mp hnone]

/-! ## Putting to sleep -/

/-- Going to sleep changes what the current thread waits on, and no other. -/
theorem waitsOn?_park :
    (s.park list t).waitsOn? u = if u = s.current then some list else s.waitsOn? u := by
  rw [waitsOn?, threads_park]
  split
  · rfl
  · rfl

theorem isOn_park :
    (s.park list t).IsOn l u ↔ l = list ∧ u = s.current ∨ s.IsOn l u := by
  simp only [IsOn, park, Std.ExtTreeMap.getD_insert, Std.compare_eq_iff_eq]
  split
  · next h =>
    subst h
    simp only [Std.ExtTreeSet.mem_insert, Std.compare_eq_iff_eq, true_and]
    exact or_congr_left eq_comm
  · next h =>
    simp only [Ne.symm h, false_and, false_or]

/-- The thread that goes to sleep was enabled, so it is on no list but the new one. -/
theorem Queued.park (h : s.Queued) (ht : s.threads[s.current]? = some t)
    (he : t.enabled = true) (list : Nat) : (s.park list t).Queued where
  current := by
    show s.current ∈ (s.park list t).threads
    rw [Std.ExtTreeMap.mem_iff_isSome_getElem?, threads_park, if_pos rfl]
    rfl
  enabled u t' hu := by
    rw [threads_park] at hu
    split at hu
    · cases hu
      rfl
    · exact h.enabled u t' hu
  isOn_iff l u := by
    rw [isOn_park, waitsOn?_park]
    split
    · next hu =>
      -- The thread was on no list before.
      have hnot : ¬ s.IsOn l u := by
        rw [h.isOn_iff, hu, h.waitsOn?_of_enabled ht he]
        simp
      simp only [hu, and_true, Option.some.injEq]
      rw [← hu]
      constructor
      · intro hor
        exact (hor.resolve_right hnot).symm
      · intro heq
        exact .inl heq.symm
    · next hu =>
      simp only [hu, and_false, false_or]
      exact h.isOn_iff l u
  nonempty l set hl := by
    simp only [State.park, Std.ExtTreeMap.getElem?_insert, Std.compare_eq_iff_eq] at hl
    split at hl
    · cases hl
      simp
    · exact h.nonempty l set hl

/-! ## Handing over -/

/-- Handing over changes only which thread is the current one, and picks one that exists. -/
theorem Queued.handOver (h : s.Queued) : s.handOver.Queued where
  current := by
    show (s.nextRunnable? s.current).getD s.current ∈ s.threads
    cases hnext : s.nextRunnable? s.current with
    | none => exact h.current
    | some v =>
      obtain ⟨t, ht, -⟩ := exists_of_nextRunnable? hnext
      rw [Option.getD_some, Std.ExtTreeMap.mem_iff_isSome_getElem?, ht]
      rfl
  enabled := h.enabled
  isOn_iff := h.isOn_iff
  nonempty := h.nonempty

/-! ## Leaving a list -/

theorem waiting_removeWaiting {set : Std.ExtTreeSet ThreadUid}
    (hset : s.waiting[list]? = some set) : (s.removeWaiting list u).waiting =
      if (set.erase u).isEmpty then s.waiting.erase list
      else s.waiting.insert list (set.erase u) := by
  rw [removeWaiting, hset]

@[simp]
theorem threads_removeWaiting : (s.removeWaiting list u).threads = s.threads := by
  rw [removeWaiting]
  split
  · rfl
  · rfl

@[simp]
theorem current_removeWaiting : (s.removeWaiting list u).current = s.current := by
  rw [removeWaiting]
  split
  · rfl
  · rfl

/-- A thread leaves one list, and all else stays where it is. -/
theorem isOn_removeWaiting :
    (s.removeWaiting list u).IsOn l v ↔ s.IsOn l v ∧ ¬ (l = list ∧ v = u) := by
  cases hset : s.waiting[list]? with
  | none =>
    have hs : s.removeWaiting list u = s := by rw [removeWaiting, hset]
    rw [hs]
    constructor
    · intro hon
      refine ⟨hon, ?_⟩
      rintro ⟨rfl, -⟩
      obtain ⟨set, hsome, -⟩ := isOn_iff_exists.mp hon
      rw [hset] at hsome
      cases hsome
    · exact And.left
  | some set =>
    have herase : v ∈ set.erase u ↔ v ∈ set ∧ ¬ v = u := by
      rw [Std.ExtTreeSet.mem_erase, Ne, Std.compare_eq_iff_eq, eq_comm, and_comm]
    by_cases hl : l = list
    · subst hl
      have hold : s.IsOn l v ↔ v ∈ set := by
        rw [IsOn, Std.ExtTreeMap.getD_eq_getD_getElem?, hset, Option.getD_some]
      rw [hold, IsOn, waiting_removeWaiting hset]
      simp only [true_and, ← herase]
      split
      · next hempty =>
        rw [Std.ExtTreeSet.isEmpty_iff.mp hempty]
        simp
      · simp
    · have hsame : (s.removeWaiting list u).waiting.getD l ∅ = s.waiting.getD l ∅ := by
        rw [waiting_removeWaiting hset]
        split
        · rw [Std.ExtTreeMap.getD_erase, if_neg (by simpa using Ne.symm hl)]
        · rw [Std.ExtTreeMap.getD_insert, if_neg (by simpa using Ne.symm hl)]
      rw [IsOn, hsame]
      simp [hl, IsOn]

/-- A list that its last thread leaves is dropped. -/
theorem nonempty_removeWaiting {set : Std.ExtTreeSet ThreadUid}
    (h : ∀ (l : Nat) (set : Std.ExtTreeSet ThreadUid), s.waiting[l]? = some set →
      set.isEmpty = false) (hl : (s.removeWaiting list u).waiting[l]? = some set) :
    set.isEmpty = false := by
  cases hset : s.waiting[list]? with
  | none =>
    rw [removeWaiting, hset] at hl
    exact h l set hl
  | some old =>
    rw [waiting_removeWaiting hset] at hl
    split at hl
    · rw [Std.ExtTreeMap.getElem?_erase] at hl
      split at hl
      · cases hl
      · exact h l set hl
    · next hne =>
      rw [Std.ExtTreeMap.getElem?_insert] at hl
      split at hl
      · cases hl
        simpa using hne
      · exact h l set hl

/-! ## Waking -/

theorem threads_wake :
    (s.wake u).threads[v]? = if v = u then s.threads[v]?.map Thread.woken else s.threads[v]? := by
  rw [wake, Std.ExtTreeMap.getElem?_modify]
  simp only [Std.compare_eq_iff_eq]
  by_cases h : v = u
  · rw [h, if_pos rfl, if_pos rfl]
    rfl
  · rw [if_neg h, if_neg (Ne.symm h)]

/-- Waking some threads wakes each of them, however often it is named. -/
theorem threads_foldl_wake (us : List ThreadUid) (s : State) :
    (us.foldl wake s).threads[v]? =
      if v ∈ us then s.threads[v]?.map Thread.woken else s.threads[v]? := by
  induction us generalizing s with
  | nil => exact (if_neg List.not_mem_nil).symm
  | cons u us ih =>
    rw [List.foldl_cons, ih, threads_wake]
    by_cases hv : v = u
    · have hwoken : Thread.woken ∘ Thread.woken = Thread.woken := rfl
      simp [hv, hwoken]
    · simp [hv]

/-- Waking touches no list, and hands over to no one. -/
theorem waiting_foldl_wake (us : List ThreadUid) (s : State) :
    (us.foldl wake s).waiting = s.waiting ∧ (us.foldl wake s).current = s.current := by
  induction us generalizing s with
  | nil => exact ⟨rfl, rfl⟩
  | cons u us ih => exact ih (s.wake u)

/-- Some threads are woken and taken from the lists. -/
structure Wakes (s : State) (us : List ThreadUid) (s' : State) : Prop where
  current : s'.current = s.current
  threads : ∀ v : ThreadUid, s'.threads[v]? =
    if v ∈ us then s.threads[v]?.map Thread.woken else s.threads[v]?
  isOn : ∀ l v, s'.IsOn l v ↔ s.IsOn l v ∧ v ∉ us
  nonempty : ∀ (l : Nat) (set : Std.ExtTreeSet ThreadUid), s'.waiting[l]? = some set →
    set.isEmpty = false

variable {us : List ThreadUid}

theorem Wakes.waitsOn? (h : s.Wakes us s') :
    s'.waitsOn? v = if v ∈ us then none else s.waitsOn? v := by
  rw [State.waitsOn?, h.threads]
  split
  · cases s.threads[v]? with
    | none => rfl
    | some t => rfl
  · rfl

/-- The threads woken lose their list and the lists lose them, so both still tell the same. -/
theorem Wakes.queued (hw : s.Wakes us s') (h : s.Queued) : s'.Queued where
  current := by
    have hcurrent := h.current
    rw [Std.ExtTreeMap.mem_iff_isSome_getElem?] at hcurrent ⊢
    rw [hw.current, hw.threads]
    split
    · rw [Option.isSome_map, hcurrent]
    · exact hcurrent
  enabled v t ht := by
    rw [hw.threads] at ht
    split at ht
    · obtain ⟨t', -, rfl⟩ := Option.map_eq_some_iff.mp ht
      rfl
    · exact h.enabled v t ht
  isOn_iff l v := by
    rw [hw.isOn, hw.waitsOn?, h.isOn_iff]
    by_cases hv : v ∈ us
    · simp [hv]
    · simp [hv]
  nonempty := hw.nonempty

/-- A thread that is not on the list is left asleep. -/
theorem notifyOne_of_not_isOn (hon : ¬ s.IsOn list u) : s.notifyOne list u = .ok (s, false) := by
  rw [isOn_iff_contains, Bool.not_eq_true] at hon
  rw [notifyOne, hon]
  rfl

/-- A thread that is on a list is not found to wait elsewhere. -/
theorem Queued.notifyOne (h : s.Queued) (hon : s.IsOn list u) :
    s.notifyOne list u = .ok ((s.removeWaiting list u).wake u, true) := by
  obtain ⟨t, ht, hwaits⟩ := Option.bind_eq_some_iff.mp ((h.isOn_iff list u).mp hon)
  have hhere : (s.removeWaiting list u).threads[u]?.any (·.waitsOn ≠ some list) = false := by
    rw [threads_removeWaiting, ht, Option.any_some, hwaits]
    simp
  rw [isOn_iff_contains] at hon
  rw [State.notifyOne, hon]
  simp only [hhere]
  rfl

/-- Waking one thread takes it from its list, and it is on no other. -/
theorem Queued.wakes_notifyOne (h : s.Queued) (hon : s.IsOn list u) :
    s.Wakes [u] ((s.removeWaiting list u).wake u) where
  current := current_removeWaiting
  threads v := by
    rw [threads_wake, threads_removeWaiting]
    simp only [List.mem_singleton]
  isOn l v := by
    show (s.removeWaiting list u).IsOn l v ↔ _
    rw [isOn_removeWaiting, List.mem_singleton, not_and]
    constructor
    · rintro ⟨hv, hne⟩
      refine ⟨hv, ?_⟩
      -- The thread is on no other list.
      rintro rfl
      rw [h.isOn_iff] at hv hon
      rw [hv] at hon
      exact hne (Option.some.inj hon) rfl
    · rintro ⟨hv, hne⟩
      exact ⟨hv, fun _ => hne⟩
  nonempty l set hl := nonempty_removeWaiting h.nonempty hl

/-- The threads that are woken with a list are those that wait on it. -/
theorem Queued.wakes_notifyAll (h : s.Queued) (list : Nat) :
    ∃ us : List ThreadUid, s.Wakes us (s.notifyAll list).1 ∧
      ∀ v, v ∈ us ↔ s.waitsOn? v = some list := by
  cases hset : s.waiting[list]? with
  | none =>
    have hall : (s.notifyAll list).1 = s := by rw [notifyAll, hset]
    rw [hall]
    refine ⟨[], ⟨rfl, ?_, ?_, h.nonempty⟩, ?_⟩
    · intro v
      rw [if_neg List.not_mem_nil]
    · intro l v
      simp only [List.not_mem_nil, not_false_eq_true, and_true]
    · intro v
      rw [← h.isOn_iff, isOn_iff_exists, hset]
      simp
  | some set =>
    have hall : (s.notifyAll list).1 =
        set.toList.foldl wake { s with waiting := s.waiting.erase list } := by
      rw [notifyAll, hset]
    have hmem : ∀ v, v ∈ set.toList ↔ s.waitsOn? v = some list := by
      intro v
      rw [Std.ExtTreeSet.mem_toList, ← h.isOn_iff, IsOn, Std.ExtTreeMap.getD_eq_getD_getElem?,
        hset, Option.getD_some]
    obtain ⟨hwaiting, hcurrent⟩ :=
      waiting_foldl_wake set.toList { s with waiting := s.waiting.erase list }
    rw [hall]
    refine ⟨set.toList, ⟨hcurrent, ?threads, ?isOn, ?nonempty⟩, hmem⟩
    case threads =>
      intro v
      exact threads_foldl_wake set.toList _
    case isOn =>
      intro l v
      rw [hmem, IsOn, hwaiting, Std.ExtTreeMap.getD_erase]
      simp only [Std.compare_eq_iff_eq]
      by_cases hl : list = l
      · rw [if_pos hl, ← hl, h.isOn_iff]
        simp
      · rw [if_neg hl]
        show s.IsOn l v ↔ s.IsOn l v ∧ _
        rw [h.isOn_iff, iff_self_and]
        -- A thread that waits elsewhere does not wait here.
        intro hv hv'
        rw [hv] at hv'
        exact hl (Option.some.inj hv').symm
    case nonempty =>
      intro l set' hl
      rw [hwaiting, Std.ExtTreeMap.getElem?_erase] at hl
      split at hl
      · cases hl
      · exact h.nonempty l set' hl

/-! ## Creating and ending threads -/

theorem startThread_awake {a : Analysis} {p : Factory} {f : FunctionId} {σ σ' : Session a}
    (h : startThread p f σ = (.ok t, σ')) : t.enabled = true ∧ t.waitsOn = none := by
  simp only [startThread, bind, StateT.bind] at h
  generalize p.create f σ = made at h
  obtain ⟨r, σ₁⟩ := made
  cases r with
  | error e => cases h
  | ok heuristic =>
    cases hfirst : a.module.firstInstruction? f with
    | none =>
      rw [hfirst] at h
      cases h
    | some entry =>
      rw [hfirst] at h
      cases h
      exact ⟨rfl, rfl⟩

/-- A new thread belongs to the process of the current one, where its number must be free. -/
theorem createThread_run {a : Analysis} (p : Factory) (s : State) (tid : Nat) (f : FunctionId)
    (σ : Session a) : createThread p s tid f σ =
      if s.threads.contains ⟨s.current.pid, tid⟩ then
        .error (.threadExists ⟨s.current.pid, tid⟩)
      else .ok ((startThread p f σ).1.map fun t =>
        ({ s with threads := s.threads.insert ⟨s.current.pid, tid⟩ t }, ⟨s.current.pid, tid⟩),
          (startThread p f σ).2) := by
  rw [createThread]
  split
  · rfl
  · rfl

/-- A thread that was created is a new one, and awake. -/
theorem of_createThread {a : Analysis} {p : Factory} {tid : Nat} {f : FunctionId}
    {σ σ' : Session a} (h : createThread p s tid f σ = .ok (.ok (s', u), σ')) :
    u ∉ s.threads ∧ ∃ t : Thread, t.enabled = true ∧ t.waitsOn = none ∧
      s' = { s with threads := s.threads.insert u t } := by
  rw [createThread_run] at h
  split at h
  · cases h
  · next hnew =>
    cases hstart : startThread p f σ with
    | mk r σ₁ =>
      rw [hstart] at h
      cases r with
      | error e => cases h
      | ok t =>
        cases h
        obtain ⟨he, hw⟩ := startThread_awake hstart
        exact ⟨by simpa using hnew, t, he, hw, rfl⟩

theorem waitsOn?_insert_new (hu : u ∉ s.threads) (hw : t.waitsOn = none) :
    ({ s with threads := s.threads.insert u t } : State).waitsOn? v = s.waitsOn? v := by
  simp only [waitsOn?, Std.ExtTreeMap.getElem?_insert, Std.compare_eq_iff_eq]
  split
  · next h =>
    rw [← h, Std.ExtTreeMap.getElem?_eq_none hu]
    exact hw
  · rfl

theorem Queued.create (h : s.Queued) (hu : u ∉ s.threads) (he : t.enabled = true)
    (hw : t.waitsOn = none) : ({ s with threads := s.threads.insert u t } : State).Queued where
  current := Std.ExtTreeMap.mem_insert.mpr (.inr h.current)
  enabled v t' ht' := by
    simp only [Std.ExtTreeMap.getElem?_insert, Std.compare_eq_iff_eq] at ht'
    split at ht'
    · cases ht'
      rw [he, hw]
      rfl
    · exact h.enabled v t' ht'
  isOn_iff l v := (h.isOn_iff l v).trans (by rw [waitsOn?_insert_new hu hw])
  nonempty := h.nonempty

/-- What is left when a thread ended. -/
def ended (s : State) (u : ThreadUid) (t : Thread) : State :=
  let s := { s with threads := s.threads.erase u }
  t.waitsOn.elim s (s.removeWaiting · u)

/-- The current thread is never ended, and ending a thread that does not exist does nothing. -/
theorem of_terminateThread {b : Bool} (h : s.terminateThread u = .ok (s', b)) :
    u ≠ s.current ∧ (s.threads[u]? = none ∧ s' = s ∨
      ∃ t, s.threads[u]? = some t ∧ s' = s.ended u t) := by
  rw [terminateThread] at h
  split at h
  · cases h
  · next hne =>
    refine ⟨hne, ?_⟩
    split at h
    · next hnone =>
      cases h
      exact .inl ⟨hnone, rfl⟩
    · next t ht =>
      cases h
      exact .inr ⟨t, ht, rfl⟩

theorem threads_ended : (s.ended u t).threads = s.threads.erase u := by
  rw [ended]
  cases t.waitsOn with
  | none => rfl
  | some list => exact threads_removeWaiting

theorem current_ended : (s.ended u t).current = s.current := by
  rw [ended]
  cases t.waitsOn with
  | none => rfl
  | some list => exact current_removeWaiting

theorem waitsOn?_ended : (s.ended u t).waitsOn? v = if v = u then none else s.waitsOn? v := by
  rw [waitsOn?, threads_ended, Std.ExtTreeMap.getElem?_erase]
  simp only [Std.compare_eq_iff_eq, eq_comm (a := u)]
  split
  · rfl
  · rfl

/-- A thread that ends leaves the list it was on. -/
theorem Queued.ended (h : s.Queued) (ht : s.threads[u]? = some t) (hu : u ≠ s.current) :
    (s.ended u t).Queued where
  current := by
    rw [current_ended, threads_ended, Std.ExtTreeMap.mem_erase, Ne, Std.compare_eq_iff_eq]
    exact ⟨hu, h.current⟩
  enabled v t' ht' := by
    rw [threads_ended, Std.ExtTreeMap.getElem?_erase] at ht'
    split at ht'
    · cases ht'
    · exact h.enabled v t' ht'
  isOn_iff l v := by
    have hwaits : ∀ l, s.IsOn l u ↔ t.waitsOn = some l := by
      intro l
      rw [h.isOn_iff, waitsOn?_of_getElem? ht]
    have hon : (s.ended u t).IsOn l v ↔ s.IsOn l v ∧ v ≠ u := by
      rw [State.ended]
      cases hw : t.waitsOn with
      | none =>
        show s.IsOn l v ↔ _
        rw [iff_self_and]
        rintro hv rfl
        rw [hwaits, hw] at hv
        cases hv
      | some list =>
        rw [Option.elim_some, isOn_removeWaiting]
        show s.IsOn l v ∧ _ ↔ _
        rw [and_congr_right_iff]
        intro hv
        rw [not_and, ne_eq]
        constructor
        · rintro hne rfl
          rw [hwaits, hw] at hv
          exact hne (Option.some.inj hv).symm rfl
        · intro hne _
          exact hne
    rw [hon, h.isOn_iff, waitsOn?_ended]
    by_cases hv : v = u
    · simp [hv]
    · simp [hv]
  nonempty l set hl := by
    rw [State.ended] at hl
    cases hw : t.waitsOn with
    | none =>
      rw [hw] at hl
      exact h.nonempty l set hl
    | some list =>
      rw [hw] at hl
      exact nonempty_removeWaiting (s := { s with threads := s.threads.erase u }) h.nonempty hl

end State

end PmemPaths.Execution
