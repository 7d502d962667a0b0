import PmemPaths.Execution.State

/-!
# Threads and waiting lists

Threads are created, scheduled, put to sleep on waiting lists and woken up.  A
thread is enabled unless it is on a waiting list.  Waiting lists that run empty
disappear.
-/

namespace PmemPaths.Execution.State

open PmemPaths.Ir (FunctionId)
open PmemPaths.Nvm (Analysis CheckedM Factory)

/-- Starts a thread of the current process in a function.  Gives its identity. -/
def createThread {a : Analysis} (p : Factory) (s : State) (tid : Nat) (f : FunctionId) :
    CheckedM a (Except Failure (State × ThreadUid)) := do
  let uid : ThreadUid := ⟨s.current.pid, tid⟩
  if s.threads.contains uid then throw (.threadExists uid)
  let started ← CheckedM.ofSession (startThread p f)
  return started.map fun t => ({ s with threads := s.threads.insert uid t }, uid)

/-- The waiting lists without a thread on one of them. -/
def removeWaiting (s : State) (list : Nat) (uid : ThreadUid) : State :=
  match s.waiting[list]? with
  | none => s
  | some set =>
    let set := set.erase uid
    { s with waiting := if set.isEmpty then s.waiting.erase list else s.waiting.insert list set }

/-- Ends a thread other than the current one.  The result tells whether there was
such a thread. -/
def terminateThread (s : State) (uid : ThreadUid) : Except Abort (State × Bool) :=
  if uid = s.current then .error (.terminatesCurrent uid)
  else
    match s.threads[uid]? with
    | none => .ok (s, false)
    | some t =>
      let s := { s with threads := s.threads.erase uid }
      .ok (t.waitsOn.elim s (s.removeWaiting · uid), true)

/-- The thread after another one, and the first after the last. -/
def nextThread (s : State) (uid : ThreadUid) : ThreadUid :=
  ((s.threads.getKeyGT? uid).or s.threads.minKey?).getD uid

/-- Makes a thread the current one. -/
def schedule (s : State) (uid : ThreadUid) : Except Abort State :=
  match s.threads[uid]? with
  | none => .error (.schedulesMissing uid)
  | some t => if t.enabled then .ok { s with current := uid } else .error (.schedulesWaiting uid)

/-- Some thread can run. -/
def hasRunnable (s : State) : Bool := s.threads.toList.any (·.2.enabled)

/-- The first thread that can run, looking behind another one and then from the
start up to it. -/
def nextRunnable? (s : State) (uid : ThreadUid) : Option ThreadUid :=
  let (before, after) := s.threads.toList.partition fun (u, _) => (compare u uid).isLE
  ((after ++ before).find? (·.2.enabled)).map (·.1)

/-- The number of a waiting list that is not in use yet. -/
def newWaitingList (s : State) : State × Nat :=
  ({ s with nextWaitingList := s.nextWaitingList + 1 }, s.nextWaitingList)

/-- Puts the current thread on a waiting list and goes on with the next one that
can run, if any can. -/
def sleep (s : State) (list : Nat) : Except Abort State := do
  if list = 0 then throw .waitingListZero
  let t ← s.thread
  if !t.enabled then throw (.alreadyWaiting s.current)
  let s := s.setThread { t with enabled := false, waitsOn := some list }
  let s := { s with
    waiting := s.waiting.insert list ((s.waiting.getD list ∅).insert s.current) }
  return { s with current := (s.nextRunnable? s.current).getD s.current }

/-- The thread does not wait any more. -/
def wake (s : State) (uid : ThreadUid) : State :=
  { s with threads := s.threads.modify uid fun t => { t with enabled := true, waitsOn := none } }

/-- Wakes one thread.  The result tells whether it was on the list. -/
def notifyOne (s : State) (list : Nat) (uid : ThreadUid) : Except Abort (State × Bool) :=
  if !(s.waiting.getD list ∅).contains uid then .ok (s, false)
  else
    let s := s.removeWaiting list uid
    if s.threads[uid]?.any (·.waitsOn ≠ some list) then .error (.waitsElsewhere uid)
    else .ok (s.wake uid, true)

/-- Wakes all threads on a list.  The result tells how many there were. -/
def notifyAll (s : State) (list : Nat) : State × Nat :=
  match s.waiting[list]? with
  | none => (s, 0)
  | some set =>
    (set.toList.foldl wake { s with waiting := s.waiting.erase list }, set.size)

end PmemPaths.Execution.State
