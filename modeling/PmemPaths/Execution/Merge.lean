import PmemPaths.Execution.State

/-!
# Merging states

Two paths that reached the same place in the same way can go on as one.  What
held on both holds on the merged path, and so does one of the two remainders.  A
local or byte that differs is the first path's where its remainder holds, and the
second's elsewhere.
-/

namespace PmemPaths.Execution

open PmemPaths.Symbolic (Expr Node Term PathCondition)

namespace Frame

/-- A local that differs, as a choice by the guard. -/
def mergeLocal (guard : Expr) : Option Expr → Option Expr → Option Expr
  | some x, some y => if x = y then some x else some (.mkSelect () guard x y)
  | x, _ => x

/-- The frame with its locals merged with those of another. -/
def merge (guard : Expr) (mine theirs : Frame) : Frame :=
  { mine with
    locals := mine.locals.mapIdx fun i x =>
      mergeLocal guard x ((theirs.locals[i]?).bind fun y => y) }

end Frame

/-- The thread with its locals merged with those of another. -/
def Thread.merge (guard : Expr) (mine theirs : Thread) : Thread :=
  { mine with
    stack := mine.stack.zipWith (Frame.merge guard) theirs.stack }

namespace State

/-- The states have the same threads at the same positions, the same symbolic
inputs and the same objects. -/
def mergeable (s t : State) : Bool :=
  s.current = t.current &&
  s.threads.keys = t.threads.keys &&
  ((s.threads.toList.zip t.threads.toList).all fun ((_, x), (_, y)) => x.samePosition y) &&
  s.symbolics = t.symbolics &&
  s.memory.sameObjects t.memory

/-- What holds on a path besides the common constraints, as one term. -/
def remainder (common p : PathCondition) : Node :=
  (p.terms.filter (!common.contains ·.plain)).foldl (Term.mkAnd none) (.mkBool none true)

/-- The constraints that hold on both paths. -/
def commonConstraints (p q : PathCondition) : PathCondition :=
  .ofList (p.terms.filter (q.contains ·.plain))

/-- The threads of the first state, each with its locals merged with those of the
second's. -/
def mergeThreads (s t : State) (guard : Expr) : Std.ExtTreeMap ThreadUid Thread :=
  (s.threads.toList.zip t.threads.toList).foldl
    (fun m ((u, x), (_, y)) => m.insert u (x.merge guard y)) s.threads

/-- Both paths in one, if they can be merged. -/
def merge (s t : State) : Except Abort (Option State) :=
  if !s.mergeable t then .ok none
  else do
    let common := commonConstraints s.condition t.condition
    let mine := remainder common s.condition
    let theirs := remainder common t.condition
    let threads := s.mergeThreads t mine.plain
    let memory := (s.memory.merge? t.memory mine.plain).getD s.memory
    let condition ← common.add (.mkOr none mine theirs)
    return some { s with threads, memory, condition }

/-- Merges another path into this one.  The answer is the state afterwards and
whether they were merged; a state that cannot be merged stays as it is. -/
def mergeInto (s t : State) : Except Abort (State × Bool) := do
  match ← s.merge t with
  | some u => return (u, true)
  | none => return (s, false)

end State

end PmemPaths.Execution
