import PmemPaths.Yaml.Scalar

/-!
# Nodes

A document is a *node*: a scalar, a list or a mapping, in block notation, where
columns tell what belongs together, or in flow notation, where brackets do.  A
node that is left out is the empty plain scalar.

Read are documents without directives, tags, anchors, folded blocks and keys
marked with `?`.  A stream holds one document.

The readers take fuel.  A step uses up a cell, or goes one level down before it
does, so a few units for each cell are enough.
-/

namespace PmemPaths.Yaml

/-- A part of a document. -/
inductive Node where
  /-- A scalar, and whether it is written plain. -/
  | scalar (plain : Bool) (text : String)
  | list (items : List Node)
  | mapping (entries : List (Node × Node))

namespace Node

/-- The node that is left out. -/
def blank : Node := .scalar true ""

/-- The scalar that starts here. -/
def scalarAt? (flow : Bool) (margin : Nat) (cs : List Cell) : Option (Node × Point) :=
  let quoted (r : Option (List Char × List Cell)) : Option (Node × Point) :=
    r.map fun (text, rest) => (.scalar false (String.ofList text), ⟨false, rest⟩)
  match cs with
  | [] => none
  | c :: rest =>
    if isMarker cs then none
    else if c.char = singleQuote then quoted (singleFrom [] .none rest)
    else if c.char = doubleQuote then quoted (doubleFrom .off [] .none rest)
    else if c.char = '|' && !flow then
      (literal? margin rest).map fun (text, rest) =>
        (.scalar false (String.ofList text), ⟨true, rest⟩)
    else if startsPlain flow cs then
      (plainFrom flow margin [] .none cs).map fun (text, p) =>
        (.scalar true (String.ofList text), p)
    else none

/-- How far from the start of a key its colon may stand. -/
def keyReach : Nat := 1024

/-- The point after the colon of a key that starts at a cell, if one follows on the
key's line and in its reach. -/
def afterColon? (flow : Bool) (key : Cell) (p : Point) : Option Point :=
  match (p.skip flow).ahead with
  | c :: cs =>
    if c.char = ':' && c.line = key.line && c.column ≤ key.column + keyReach &&
        (flow || endsWord cs) then some ⟨false, cs⟩ else none
  | [] => none

/-! ## Flow notation -/

mutual

/-- A node in flow notation. -/
def flow? (fuel margin : Nat) (p : Point) : Option (Node × Point) :=
  match fuel with
  | 0 => none
  | fuel + 1 =>
    match (p.skip true).ahead with
    | [] => none
    | c :: cs =>
      if c.char = '[' then flowItems? fuel margin [] ⟨false, cs⟩
      else if c.char = '\x7b' then flowEntries? fuel margin [] ⟨false, cs⟩
      else scalarAt? true margin (c :: cs)
termination_by structural fuel

/-- The rest of a list, after a bracket or a comma. -/
def flowItems? (fuel margin : Nat) (back : List Node) (p : Point) : Option (Node × Point) :=
  match fuel with
  | 0 => none
  | fuel + 1 =>
    match (p.skip true).ahead with
    | [] => none
    | c :: cs =>
      if c.char = ']' then some (.list back.reverse, ⟨false, cs⟩)
      else do
        let (item, p) ← flow? fuel margin ⟨false, c :: cs⟩
        match (p.skip true).ahead with
        | [] => none
        | d :: ds =>
          if d.char = ',' then flowItems? fuel margin (item :: back) ⟨false, ds⟩
          else if d.char = ']' then some (.list (item :: back).reverse, ⟨false, ds⟩)
          else none
termination_by structural fuel

/-- The rest of a mapping, after a brace or a comma. -/
def flowEntries? (fuel margin : Nat) (back : List (Node × Node)) (p : Point) :
    Option (Node × Point) :=
  match fuel with
  | 0 => none
  | fuel + 1 =>
    match (p.skip true).ahead with
    | [] => none
    | c :: cs =>
      if c.char = '\x7d' then some (.mapping back.reverse, ⟨false, cs⟩)
      else do
        let (key, p) ← flow? fuel margin ⟨false, c :: cs⟩
        let (value, p) ← match afterColon? true c p with
          | none => some (blank, p)
          | some p =>
            if (p.skip true).ahead.head?.any fun d => d.char = ',' || d.char = '\x7d' then
              some (blank, p)
            else flow? fuel margin p
        match (p.skip true).ahead with
        | [] => none
        | d :: ds =>
          if d.char = ',' then flowEntries? fuel margin ((key, value) :: back) ⟨false, ds⟩
          else if d.char = '\x7d' then
            some (.mapping ((key, value) :: back).reverse, ⟨false, ds⟩)
          else none
termination_by structural fuel

end

/-! ## Block notation -/

mutual

/-- A node in block notation.  What stands to the left of the margin belongs to
another node, except that the bar of a literal block may stand one column before it:
in the column of the key or the dash that it follows, no key and no dash is a bar. -/
def block? (fuel margin : Nat) (p : Point) : Option (Node × Point) :=
  match fuel with
  | 0 => none
  | fuel + 1 =>
    let p := p.skip false
    match p.ahead with
    | [] => some (blank, p)
    | c :: cs =>
      let reached := margin ≤ c.column || (c.char = '|' && c.column + 1 = margin)
      if isMarker (c :: cs) || !reached then some (blank, p)
      else if c.char = '[' || c.char = '\x7b' then flow? (2 * cs.length + 2) margin p
      else if isDash (c :: cs) then
        if p.fresh then blockItems? fuel c.column [] cs else none
      else do
        let (node, q) ← scalarAt? false margin (c :: cs)
        match afterColon? false c q with
        | none => some (node, q)
        | some q => if p.fresh then blockEntries? fuel c.column [] node q else none
termination_by structural fuel

/-- The rest of a list, after a dash. -/
def blockItems? (fuel column : Nat) (back : List Node) (cs : List Cell) :
    Option (Node × Point) :=
  match fuel with
  | 0 => none
  | fuel + 1 => do
    let (item, p) ← block? fuel (column + 1) ⟨true, cs⟩
    let p := p.skip false
    match p.ahead with
    | [] => some (.list (item :: back).reverse, p)
    | c :: cs =>
      if p.fresh && c.column = column && isDash (c :: cs) then
        blockItems? fuel column (item :: back) cs
      else some (.list (item :: back).reverse, p)
termination_by structural fuel

/-- The rest of a mapping, after the colon of a key.  A list may stand in the
column of the key it belongs to. -/
def blockEntries? (fuel column : Nat) (back : List (Node × Node)) (key : Node) (p : Point) :
    Option (Node × Point) :=
  match fuel with
  | 0 => none
  | fuel + 1 => do
    let p := p.skip false
    let (value, p) ← match p.ahead with
      | [] => some (blank, p)
      | c :: cs =>
        if p.fresh && c.column = column && isDash (c :: cs) then blockItems? fuel column [] cs
        else block? fuel (column + 1) p
    let p := p.skip false
    let back := (key, value) :: back
    match p.ahead with
    | [] => some (.mapping back.reverse, p)
    | c :: cs =>
      if isMarker (c :: cs) || c.column < column then some (.mapping back.reverse, p)
      else if column < c.column || !p.fresh then none
      else do
        let (key, p) ← scalarAt? false (column + 1) (c :: cs)
        blockEntries? fuel column back key (← afterColon? false c p)
termination_by structural fuel

end

/-! ## Documents -/

/-- Nothing but marks of the document's end is ahead. -/
def endsStream : Nat → Point → Bool
  | 0, _ => false
  | fuel + 1, p =>
    match (p.skip false).ahead with
    | [] => true
    | c :: cs => isMarker (c :: cs) && c.char = '.' && endsStream fuel ⟨false, cs.drop 2⟩

/-- The document in a text, if the text is one. -/
def ofText? (text : String) : Option Node := do
  let cs ← cells? text.toList
  let fuel := 4 * cs.length + 4
  let start := Point.skip false ⟨true, cs⟩
  let (node, p) ← match start.ahead with
    | [] => some (blank, start)
    | c :: rest =>
      if isMarker (c :: rest) then
        if c.char = '-' then block? fuel 0 ⟨false, rest.drop 2⟩ else none
      else block? fuel 0 start
  if endsStream fuel p then some node else none

end Node

end PmemPaths.Yaml
