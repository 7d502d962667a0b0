import PmemPaths.Config.Strategy

/-!
# Settings

The settings a heuristic is made from, what makes them acceptable, and the
reasons for refusing them.
-/

namespace PmemPaths.Config

/-- The smallest page size that is accepted. -/
def minPageSize : Nat := 512

/-- The largest page size that is accepted. -/
def maxPageSize : Nat := 0x200000

/-- Why settings are refused. -/
inductive SettingsError where
  /-- The page size is no power of two, or out of bounds. -/
  | pageSize (value : Nat)
  /-- No strategy has this name. -/
  | unknownStrategy (name : String)
  /-- The strategy cannot be made into a heuristic. -/
  | invalidStrategy
  /-- The settings file cannot be read as text. -/
  | unreadable
  /-- The text is not a settings document. -/
  | malformed
  /-- No allocation function is named. -/
  | noAllocFunctions
  /-- The name of an allocation function is blank. -/
  | blankAllocFunction
deriving DecidableEq, Repr

/-- The wording of a refusal. -/
def SettingsError.message : SettingsError → String
  | pageSize n =>
    "Invalid range for field 'page_size': " ++ toString n ++ " not in " ++ toString minPageSize ++
      "..=" ++ toString maxPageSize ++ ". Page size must be a power of two"
  | unknownStrategy name =>
    "Unknown heuristic '" ++ name ++ "'. Valid heuristics: none, static, dynamic"
  | invalidStrategy => "Heuristic kind 'invalid' cannot be instantiated"
  | unreadable => "IO error"
  | malformed => "YAML parsing error"
  | noAllocFunctions =>
    "Validation error: nvm_alloc_functions must name at least one allocation entry point"
  | blankAllocFunction => "Validation error: nvm_alloc_functions contains an empty name"

/-- The strategy a user names, or the refusal of an unknown name. -/
def Strategy.named (s : String) : Except SettingsError Strategy :=
  match Strategy.parse s with
  | .invalid => .error (.unknownStrategy s)
  | k => .ok k

/-- The settings of a heuristic. -/
structure Settings where
  /-- How priorities are found. -/
  strategy : Strategy := .default
  /-- The functions whose results are persistent memory. -/
  allocFunctions : List String := ["mmap", "mmap64"]
  /-- The size of a page of persistent memory. -/
  pageSize : Nat := 4096
  /-- Whether a new heuristic reports its tables. -/
  dumpOnConstruction : Bool := false
deriving DecidableEq, Repr

/-- The number is a power of two. -/
def isPowerOfTwo (n : Nat) : Bool := Nat.pow 2 n.log2 = n

namespace Settings

/-- The settings with one more allocation function, unless it is named already. -/
def addAllocFunction (s : Settings) (name : String) : Settings :=
  if name ∈ s.allocFunctions then s
  else { s with allocFunctions := s.allocFunctions ++ [name] }

/-- The function allocates persistent memory. -/
def isAllocFunction (s : Settings) (name : String) : Bool := s.allocFunctions.contains name

/-- Accepts the settings or says what is wrong with them first. -/
def validate (s : Settings) : Except SettingsError Unit :=
  if s.strategy = .invalid then .error .invalidStrategy
  else if !isPowerOfTwo s.pageSize || s.pageSize < minPageSize || maxPageSize < s.pageSize then
    .error (.pageSize s.pageSize)
  else if s.allocFunctions.isEmpty then .error .noAllocFunctions
  else if s.allocFunctions.any fun name => (Text.trim name).isEmpty then
    .error .blankAllocFunction
  else .ok ()

end Settings

end PmemPaths.Config
