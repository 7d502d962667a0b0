import PmemPaths.RootCause.Location
import Std.Data.ExtTreeMap
import Std.Data.HashMap

/-!
# The ledger of root causes

The ledger numbers the places where bugs showed, counts how often each did, and
keeps what each may hide and which are confirmed bugs.  Numbers start at one and
are never given twice, also not after the ledger is cleared.
-/

namespace PmemPaths.RootCause

/-- A root cause in the ledger. -/
structure Entry where
  /-- Where it is. -/
  location : Location
  /-- How often it showed. -/
  occurrences : Nat

/-- The root causes seen so far. -/
structure Ledger where
  /-- The next number. -/
  nextId : Nat := 1
  /-- The numbers of the places. -/
  ids : Std.HashMap Place Nat := ∅
  /-- The root causes by number. -/
  entries : Std.ExtTreeMap Nat Entry := ∅
  /-- How often any root cause showed, cleared ones included. -/
  total : Nat := 0
  /-- The confirmed bugs. -/
  bugs : Std.ExtTreeSet Nat := ∅

/-- A confirmed bug. -/
structure BugReport where
  /-- Its number. -/
  id : Nat
  /-- What is wrong. -/
  reason : Reason
  /-- How often it showed. -/
  occurrences : Nat
  /-- The root causes it may hide, directly or not. -/
  masked : List Nat
  /-- The text of its location. -/
  location : String
deriving DecidableEq, Repr

namespace Ledger

/-- How many root causes there are. -/
def size (l : Ledger) : Nat := l.entries.size

/-- There are no root causes. -/
def isEmpty (l : Ledger) : Bool := l.entries.isEmpty

/-- The number of a place. -/
def idOf? (l : Ledger) (p : Place) : Option Nat := l.ids[p]?

/-- The location of a root cause. -/
def location? (l : Ledger) (id : Nat) : Option Location := l.entries[id]?.map (·.location)

/-- How often a root cause showed. -/
def occurrences? (l : Ledger) (id : Nat) : Option Nat := l.entries[id]?.map (·.occurrences)

/-- The root cause is a confirmed bug. -/
def isBug (l : Ledger) (id : Nat) : Bool := l.bugs.contains id

/-- Enters that a bug showed.  Gives the number of its root cause, which is a new
one when the place is. -/
def record (l : Ledger) (seen : Location) : Ledger × Nat :=
  let l := { l with total := l.total + 1 }
  match l.idOf? seen.place with
  | some id =>
    ({ l with
      entries := l.entries.modify id fun e => { e with occurrences := e.occurrences + 1 } }, id)
  | none =>
    let id := l.nextId
    ({ l with
      nextId := id + 1
      ids := l.ids.insert seen.place id
      entries := l.entries.insert id ⟨seen, 1⟩ }, id)

/-- Enters root causes that a known one may hide. -/
def addMasked (l : Ledger) (id : Nat) (masked : List Nat) : Ledger :=
  { l with
    entries := l.entries.modify id fun e =>
      { e with location := { e.location with masked := e.location.masked.insertMany masked } } }

/-- Confirms a known root cause.  The result tells whether it is newly confirmed. -/
def markAsBug (l : Ledger) (id : Nat) : Ledger × Bool :=
  if l.entries.contains id then ({ l with bugs := l.bugs.insert id }, !l.bugs.contains id)
  else (l, false)

/-- Forgets all root causes, but not their numbers and how many there were. -/
def clear (l : Ledger) : Ledger := { l with ids := ∅, entries := ∅, bugs := ∅ }

/-! ## What a root cause may hide -/

/-- The root causes that a known one may hide directly. -/
def maskedBy (l : Ledger) (id : Nat) : List Nat :=
  (l.location? id).elim [] (·.masked.toList)

/-- Follows the root causes on a list, for at most so many steps. -/
def close (l : Ledger) : Nat → Std.ExtTreeSet Nat → List Nat → Std.ExtTreeSet Nat
  | 0, seen, _ => seen
  | _ + 1, seen, [] => seen
  | n + 1, seen, id :: rest =>
    let new := (l.maskedBy id).filter (!seen.contains ·)
    close l n (seen.insertMany new) (new ++ rest)
termination_by structural n => n

/-- The root causes that a known one may hide, directly or through others.  Every
step after the first follows one that was newly found, so there are no more steps
than root causes entered as hidden. -/
def maskedClosure (l : Ledger) (id : Nat) : Std.ExtTreeSet Nat :=
  close l ((l.entries.toList.map fun (_, e) => e.location.masked.size).foldl (· + ·) 2) ∅ [id]

/-! ## Reports -/

/-- Numbers as text. -/
def idList (ids : List Nat) : String := ", ".intercalate (ids.map fun i => "#" ++ toString i)

/-- The text of a root cause. -/
def entryText (l : Ledger) (id : Nat) : String :=
  match l.location? id with
  | none => "<unknown root cause #" ++ toString id ++ ">"
  | some location =>
    let masked := (l.maskedClosure id).toList
    "Root cause #" ++ toString id ++ ": " ++ location.text ++
      if masked.isEmpty then "" else "  may mask: " ++ idList masked ++ "\n"

/-- The confirmed bugs, by number. -/
def bugReports (l : Ledger) : List BugReport :=
  l.bugs.toList.filterMap fun id =>
    l.entries[id]?.map fun e =>
      { id
        reason := e.location.place.reason
        occurrences := e.occurrences
        masked := (l.maskedClosure id).toList
        location := e.location.text }

/-- The text of a confirmed bug in the summary. -/
def bugText (r : BugReport) : String :=
  "\n[Bug #" ++ toString r.id ++ "] " ++ toString r.occurrences ++ " occurrence(s)\n" ++
    r.location ++ "  masked root causes: " ++
    (if r.masked.isEmpty then "none" else idList r.masked) ++ "\n"

/-- The confirmed bugs in words. -/
def summary (l : Ledger) : String :=
  "Found " ++ toString l.bugReports.length ++ " unique bug(s) among " ++ toString l.size ++
    " root cause(s), " ++ toString l.total ++ " occurrence(s) in total\n" ++
    String.join (l.bugReports.map bugText)

/-- The text of the ledger. -/
def text (l : Ledger) : String :=
  "RootCauseManager: " ++ toString l.size ++ " root cause(s), " ++ toString l.total ++
    " occurrence(s)\n" ++
    String.join (l.entries.toList.map fun (id, e) =>
      "  #" ++ toString id ++ " x" ++ toString e.occurrences ++
        (if l.isBug id then " [bug]" else "") ++ " " ++ e.location.place.reason.name ++ "\n")

end Ledger

end PmemPaths.RootCause
