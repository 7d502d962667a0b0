import PmemPaths.Yaml.Cell

/-!
# Scalars

The four notations of a scalar: plain, in single quotes, in double quotes, and as
a literal block.  In the first three the blanks around a line end are folded: one
line end reads as a blank, and of several all but the first are kept.

Each reader is structural in the cells ahead.
-/

namespace PmemPaths.Yaml

/-! ## Folding -/

/-- The white characters between two pieces of a scalar. -/
inductive Gap where
  /-- Blanks inside a line. -/
  | blanks (text : List Char)
  /-- The first line end, if it counts, and the ones after it. -/
  | lines (first more : List Char)

namespace Gap

/-- No gap. -/
def none : Gap := .blanks []

/-- Nothing is in the gap. -/
def isEmpty : Gap → Bool
  | blanks [] => true
  | _ => false

/-- The gap holds a line end. -/
def crosses : Gap → Bool
  | blanks _ => false
  | lines _ _ => true

/-- The gap with one more white character.  Blanks next to a line end are dropped. -/
def add (c : Char) : Gap → Gap
  | blanks text => if isBreak c then lines [c] [] else blanks (text ++ [c])
  | lines first more => if isBreak c then lines first (more ++ [c]) else lines first more

/-- What a gap reads as. -/
def text : Gap → List Char
  | blanks text => text
  | lines ['\n'] [] => [' ']
  | lines ['\n'] more => more
  | lines first more => first ++ more

/-- A text, written backwards, with a gap and one more character. -/
def join (g : Gap) (back : List Char) (c : Char) : List Char := c :: (g.text.reverse ++ back)

end Gap

/-! ## Plain scalars -/

/-- The characters that no plain scalar starts with, unless something follows. -/
def indicators : List Char :=
  ['-', '?', ':', ',', '[', ']', '\x7b', '\x7d', '#', '&', '*', '!', '|', '>', singleQuote,
    doubleQuote, '%', '@', '\x60']

/-- The characters that end a plain scalar in flow notation. -/
def flowIndicators : List Char := [',', '[', ']', '\x7b', '\x7d']

/-- A plain scalar starts here. -/
def startsPlain (flow : Bool) : List Cell → Bool
  | [] => false
  | c :: cs =>
    !isWhite c.char && (!indicators.contains c.char || (c.char = '-' && !endsWord cs) ||
      (!flow && (c.char = '?' || c.char = ':') && !endsWord cs))

/-- The rest of a plain scalar.  In block notation it reaches as far as its lines
keep to the right of the margin. -/
def plainFrom (flow : Bool) (margin : Nat) (back : List Char) (gap : Gap) :
    List Cell → Option (List Char × Point)
  | [] => some (back.reverse, ⟨gap.crosses, []⟩)
  | c :: cs =>
    if isWhite c.char then
      if gap.crosses && c.char = '\t' && c.column < margin then none
      else plainFrom flow margin back (gap.add c.char) cs
    else if (gap.crosses && !flow && c.column < margin) || isMarker (c :: cs) ||
        (c.char = '#' && !gap.isEmpty) || (c.char = ':' && endsWord cs) ||
        (flow && flowIndicators.contains c.char) then
      some (back.reverse, ⟨gap.crosses, c :: cs⟩)
    else if flow && c.char = ':' && cs.head?.any fun d => ('?' :: flowIndicators).contains d.char
      then none
    else plainFrom flow margin (gap.join back c.char) .none cs

/-! ## Quoted scalars -/

/-- The rest of a scalar in single quotes, after the opening mark. -/
def singleFrom (back : List Char) (gap : Gap) : List Cell → Option (List Char × List Cell)
  | [] => none
  | c :: cs =>
    if isMarker (c :: cs) then none
    else if isWhite c.char then singleFrom back (gap.add c.char) cs
    else if c.char != singleQuote then singleFrom (gap.join back c.char) .none cs
    else match cs with
      | [] => some (back.reverse ++ gap.text, [])
      | d :: ds =>
        if d.char = singleQuote then singleFrom (gap.join back singleQuote) .none ds
        else some (back.reverse ++ gap.text, d :: ds)

/-- How far the reading of an escape has come. -/
inductive Escape where
  /-- There is none. -/
  | off
  /-- The backslash is read. -/
  | started
  /-- Some digits of a code are read, and more follow after the next one. -/
  | code (more value : Nat)

/-- The escapes of one letter. -/
def escapes : List (Char × Char) :=
  [('0', '\x00'), ('a', '\x07'), ('b', '\x08'), ('t', '\t'), ('\t', '\t'), ('n', '\n'),
    ('v', '\x0b'), ('f', '\x0c'), ('r', '\r'), ('e', '\x1b'), (' ', ' '),
    (doubleQuote, doubleQuote), ('/', '/'), (backslash, backslash), ('N', '\u0085'),
    ('_', '\u00a0'), ('L', '\u2028'), ('P', '\u2029')]

/-- The escapes with a code, and how many digits the code has after its first. -/
def codeEscapes : List (Char × Nat) := [('x', 1), ('u', 3), ('U', 7)]

/-- The value of a digit, in bases up to sixteen. -/
def digit? (base : Nat) (c : Char) : Option Nat :=
  let n := c.toNat
  let value :=
    if c.isDigit then n - 48
    else if 'a' ≤ c ∧ c ≤ 'f' then n - 87
    else if 'A' ≤ c ∧ c ≤ 'F' then n - 55
    else base
  if value < base then some value else none

/-- The rest of a scalar in double quotes, after the opening mark. -/
def doubleFrom : Escape → List Char → Gap → List Cell → Option (List Char × List Cell)
  | _, _, _, [] => none
  | .code more value, back, gap, c :: cs =>
    match digit? 16 c.char with
    | none => none
    | some d =>
      let value := 16 * value + d
      if 0 < more then doubleFrom (.code (more - 1) value) back gap cs
      else if value.isValidChar then doubleFrom .off (gap.join back (Char.ofNat value)) .none cs
      else none
  | .started, back, gap, c :: cs =>
    if isBreak c.char then doubleFrom .off (gap.text.reverse ++ back) (.lines [] []) cs
    else match escapes.lookup c.char, codeEscapes.lookup c.char with
      | some d, _ => doubleFrom .off (gap.join back d) .none cs
      | none, some more => doubleFrom (.code more 0) back gap cs
      | none, none => none
  | .off, back, gap, c :: cs =>
    if isMarker (c :: cs) then none
    else if isWhite c.char then doubleFrom .off back (gap.add c.char) cs
    else if c.char = doubleQuote then some (back.reverse ++ gap.text, cs)
    else if c.char = backslash then doubleFrom .started back gap cs
    else doubleFrom .off (gap.join back c.char) .none cs

/-! ## Literal blocks -/

/-- What becomes of the line ends after a literal block. -/
inductive Chomping where
  | strip | clip | keep
deriving DecidableEq

/-- The chomping and the indentation that the first line of a block gives.  A comment may
follow them at once. -/
def blockHeader? (cs : List Char) : Option (Chomping × Nat) :=
  let chomping : Char → Option Chomping
    | '-' => some .strip
    | '+' => some .keep
    | _ => none
  let word := cs.takeWhile fun c => !isBlank c && c != '#'
  let rest := (cs.drop word.length).dropWhile isBlank
  if rest.head?.any (· != '#') then none
  else match word with
    | [] => some (.clip, 0)
    | [c] =>
      match chomping c, digit? 10 c with
      | some k, _ => some (k, 0)
      | none, some (n + 1) => some (.clip, n + 1)
      | _, _ => none
    | [c, d] =>
      match chomping c, digit? 10 d, digit? 10 c, chomping d with
      | some k, some (n + 1), _, _ => some (k, n + 1)
      | _, _, some (n + 1), some k => some (k, n + 1)
      | _, _, _, _ => none
    | _ => none

/-- The lines ahead, each with its line end. -/
def linesAhead : List Cell → List (List Cell)
  | [] => []
  | c :: cs =>
    match isBreak c.char, linesAhead cs with
    | true, ls => [c] :: ls
    | false, [] => [[c]]
    | false, l :: ls => (c :: l) :: ls

/-- The number of blanks a line starts with. -/
def leadingBlanks (l : List Cell) : Nat := (l.takeWhile (·.char = ' ')).length

/-- The next character after the blanks a line starts with is a tab. -/
def tabFollows (l : List Cell) : Bool := (l[leadingBlanks l]?).any (·.char = '\t')

/-- Only blanks stand on the line, and no more of them than the indentation. -/
def isBlankLine (indent : Nat) (l : List Cell) : Bool :=
  leadingBlanks l ≤ indent && (l[leadingBlanks l]?).all (isBreak ·.char)

/-- The lines of a literal block, with the line ends that wait for more text: its text,
the line ends after it, and what follows it. -/
def blockLines (indent : Nat) (ends : List Char) :
    List (List Cell) → Option (List Char × List Char × List Cell)
  | [] => some ([], ends, [])
  | l :: ls =>
    let n := leadingBlanks l
    if isBlankLine indent l then blockLines indent (ends ++ ((l.drop n).map (·.char))) ls
    else if n < indent then
      if tabFollows l then none else some ([], ends, (l :: ls).flatten)
    else
      let line := (l.drop indent).map (·.char)
      (blockLines indent (line.filter isBreak) ls).map fun (text, more, rest) =>
        (ends ++ line.takeWhile (!isBreak ·) ++ text, more, rest)

/-- The indentation of a block whose first line gives none: that of its first line with
text, or of a longer blank line before it.  A tab leaves it open how far the line goes
in. -/
def ownIndent? (margin : Nat) (ls : List (List Cell)) : Option Nat :=
  let blank := ls.takeWhile fun l => isBlankLine l.length l
  let start := blank ++ (ls.drop blank.length).take 1
  if start.any tabFollows then none
  else some ((start.map leadingBlanks).foldl max (max margin 1))

/-- A literal block, after its bar. -/
def literal? (margin : Nat) (cs : List Cell) : Option (List Char × List Cell) :=
  match linesAhead cs with
  | [] => some ([], [])
  | first :: ls => do
    let (chomping, given) ← blockHeader? ((first.map (·.char)).takeWhile (!isBreak ·))
    let indent ← if 0 < given then some (margin - 1 + given) else ownIndent? margin ls
    let (text, ends, rest) ← blockLines indent [] ls
    some (text ++ (match chomping with
      | .strip => []
      | .clip => if text = [] then [] else ends.take 1
      | .keep => ends), rest)

example : Gap.text (.lines ['\n'] ['\n']) = ['\n'] := by decide

end PmemPaths.Yaml
