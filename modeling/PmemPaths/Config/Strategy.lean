import PmemPaths.Text.Blank

/-!
# Prioritization strategies

A strategy says how the priorities of instructions are found.  `invalid` is the
strategy of a name nobody knows: it can be read and shown, and it is refused
wherever a heuristic is made.
-/

namespace PmemPaths.Config

/-- How priorities are found. -/
inductive Strategy where
  /-- They are not. -/
  | off
  /-- Once, for the whole module. -/
  | static
  /-- Along the call stack. -/
  | dynamic
  /-- The name was not known. -/
  | invalid
deriving DecidableEq, Repr

namespace Strategy

/-- The strategy when none is named. -/
def default : Strategy := .dynamic

/-- The name of a strategy. -/
def name : Strategy → String
  | off => "none"
  | static => "static"
  | dynamic => "dynamic"
  | invalid => "invalid"

/-- What a strategy does, in words. -/
def explanation : Strategy → String
  | off => "no NVM prioritization, every instruction has priority 0"
  | static => "context-insensitive priorities computed once for the whole module"
  | dynamic => "call-stack-sensitive priorities refined as NVM values are discovered"
  | invalid => "unrecognised heuristic"

/-- The strategy with exactly this name.  `invalid` is a name here too. -/
def ofName? (s : String) : Option Strategy :=
  [off, static, dynamic, invalid].find? (·.name = s)

/-- The strategy a user means: blanks around the name and the case of its
letters do not matter.  Lower-casing the ASCII letters is enough, because no
other character has a lower case that occurs in a name. -/
def parse (s : String) : Strategy :=
  let word := String.ofList ((Text.trim s).toList.map Char.toLower)
  ([off, static, dynamic].find? (·.name = word)).getD invalid

end Strategy

end PmemPaths.Config
