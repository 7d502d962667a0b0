import PmemPaths.Nvm.Dynamic
import PmemPaths.Nvm.Static
import PmemPaths.Text.Percent

/-!
# Heuristics

The heuristic of a thread tells the priority of its current instruction.  There
is one kind for each strategy, and all kinds take the same events: the thread
steps, it learns whether an instruction touched persistent memory, and it learns
what a call calls.  A factory makes the heuristics of a program from one set of
settings.
-/

namespace PmemPaths.Nvm

open PmemPaths.Ir (ValueId FunctionId Module)
open PmemPaths.Config (Settings Strategy)

/-- The heuristic of a thread. -/
inductive Heuristic where
  /-- Every priority is zero. -/
  | off
  /-- Priorities from tables for the whole module. -/
  | static (h : StaticHeuristic)
  /-- Priorities along the call stack. -/
  | dynamic (h : DynamicHeuristic)

/-- The active tables in numbers. -/
structure HeuristicStats where
  /-- The instructions with a weight, even zero. -/
  instructions : Nat := 0
  /-- Those that weigh something. -/
  weighted : Nat := 0
  /-- Those with a priority above zero. -/
  prioritized : Nat := 0
  /-- The number of contexts. -/
  depth : Nat := 0
  /-- The priority of the current instruction, zero when it is unknown. -/
  priority : Nat := 0
deriving DecidableEq, Repr

/-- How many entries of a table are not zero. -/
def countPositive (t : Table) : Nat := (t.toList.filter (0 < ·.2)).length

namespace HeuristicStats

/-- The numbers that two tables give. -/
def ofTables (weights priorities : Table) (depth priority : Nat) : HeuristicStats where
  instructions := weights.size
  weighted := countPositive weights
  prioritized := countPositive priorities
  depth := depth
  priority := priority

/-- The share of instructions that weigh something. -/
def weightedPercent (s : HeuristicStats) : String := Text.percent s.weighted s.instructions

/-- The share of instructions with a priority. -/
def prioritizedPercent (s : HeuristicStats) : String := Text.percent s.prioritized s.instructions

end HeuristicStats

namespace Heuristic

/-- The strategy of a heuristic. -/
def strategy : Heuristic → Strategy
  | off => .off
  | static _ => .static
  | dynamic _ => .dynamic

/-- Tables never have to be made again in bulk: every event keeps them current. -/
def needsRecomputation : Heuristic → Bool
  | off | static _ | dynamic _ => false

/-- The priority of the current instruction.  A dynamic heuristic aborts when the
instruction is not in the active context. -/
def priority (m : Module) : Heuristic → Except Abort Nat
  | off => .ok 0
  | static h => .ok h.currentPriority
  | dynamic h => (h.priority m).mapError fun
    | .failure reason => .outOfSync reason
    | .abort a => a

/-- The active tables in numbers. -/
def stats (m : Module) : Heuristic → Except Abort HeuristicStats
  | off => return {}
  | static h => return .ofTables h.tables.weights h.tables.priorities 0 h.currentPriority
  | dynamic h =>
    return .ofTables h.top.weights h.top.priorities h.depth (← h.priorityOrZero m)

variable {a : Analysis}

/-- The thread learns whether an instruction touched persistent memory. -/
def learn (h : Heuristic) (pc : ValueId) (isNvm : Bool) : SessionM a Heuristic :=
  match h with
  | dynamic h => dynamic <$> Session.learn h pc isNvm
  | h => return h

/-- The thread learns what a call calls. -/
def learnCallee (h : Heuristic) (pc : ValueId) (callee : FunctionId) : CheckedM a Heuristic :=
  match h with
  | dynamic h => dynamic <$> CheckedM.onFunction callee (Session.learnCallee h pc callee)
  | h => pure h

/-- The thread goes from one instruction to another. -/
def step (h : Heuristic) (pc next : ValueId) : CheckedM a Heuristic :=
  match h with
  | off => return off
  | static h => return static { h with current := some next }
  | dynamic h => dynamic <$> CheckedM.onStep pc next (Session.stepDynamic h pc next)

/-- The thread should keep an eye on this value.  Only dynamic heuristics know. -/
def isImportant (h : Heuristic) (v : ValueId) : SessionM a Bool :=
  match h with
  | dynamic h => Session.mayPoint h.top.state.value v
  | _ => return false

end Heuristic

/-- Makes the heuristics of a program. -/
structure Factory where
  /-- The settings. -/
  settings : Settings
  /-- What is known at first. -/
  initial : Descriptor
  /-- The tables for the whole module, where the strategy needs them. -/
  tables : Option StaticTables

namespace Factory

variable {a : Analysis}

/-- A factory for which the given sites allocate persistent memory besides the
functions the settings name. -/
def prepare (settings : Settings) (sites : List ValueId) : SessionM a Factory := do
  let facts := Facts.initial a.module settings.allocFunctions sites
  let initial ← Session.intern ⟨← Session.fresh, facts⟩
  let tables ← if settings.strategy = .static then
      some <$> Session.staticTables initial.value
    else pure none
  return { settings, initial, tables }

/-- A factory, if the settings are accepted.  It is prepared once without the
annotated sites, and again with them when there are any to speak of. -/
def make (settings : Settings) (sites : Option (List ValueId)) :
    SessionM a (Except Failure Factory) := do
  match settings.validate with
  | .error e => return .error (.settings e)
  | .ok () =>
    let plain ← prepare settings []
    match sites with
    | none => return .ok plain
    | some sites => return .ok (← prepare settings sites)

/-- A heuristic for a thread that starts in a function. -/
def create (p : Factory) (entry : FunctionId) : SessionM a (Except Failure Heuristic) := do
  match a.module.function? entry with
  | none => return .error (.noFunction (Ir.functionText entry))
  | some f =>
    match f.isDeclaration, a.module.firstInstruction? entry with
    | false, some first =>
      match p.settings.strategy with
      | .off => return .ok .off
      | .static =>
        let tables ← match p.tables with
          | some t => pure t
          | none => Session.staticTables p.initial.value
        return .ok (.static { state := p.initial, tables, current := some first })
      | .dynamic => return .ok (.dynamic (← Session.startDynamic entry first p.initial))
      | .invalid => return .error (.settings .invalidStrategy)
    | _, _ => return .error (.noBody f.name)

/-- A heuristic for a thread that starts in the function of that name. -/
def createNamed (p : Factory) (entry : String) : SessionM a (Except Failure Heuristic) :=
  match a.module.functionNamed? entry with
  | none => return .error (.noFunction entry)
  | some f => p.create f

end Factory

end PmemPaths.Nvm
