/-!
# Cells

A document is read as a list of *cells*, its characters with their places.  Line
ends are made alike first: a carriage return, with or without a line feed after
it, and the next-line character all become one line feed.  The separators of
lines and of paragraphs end a line too and stay what they are.

Columns carry the whole meaning of block notation, so no reader here counts
them: it looks at the cells.
-/

namespace PmemPaths.Yaml

/-- A character and its place in the document. -/
structure Cell where
  char : Char
  line : Nat
  column : Nat
deriving DecidableEq, Repr

/-- The quotation mark in which only the mark itself needs care. -/
def singleQuote : Char := '\x27'

/-- The quotation mark in which there are escapes. -/
def doubleQuote : Char := '\x22'

/-- The character that starts an escape. -/
def backslash : Char := '\x5c'

/-- The character ends a line. -/
def isBreak (c : Char) : Bool :=
  c = '\n' || c = '\r' || c = '\u0085' || c = '\u2028' || c = '\u2029'

/-- The character is a blank inside a line. -/
def isBlank (c : Char) : Bool := c = ' ' || c = '\t'

/-- The character is a blank or ends a line. -/
def isWhite (c : Char) : Bool := isBlank c || isBreak c

/-- The character may stand in a document. -/
def isAllowed (c : Char) : Bool :=
  let n := c.toNat
  n = 0x09 || n = 0x0a || n = 0x0d || n = 0x85 || (0x20 ≤ n && n ≤ 0x7e) ||
    (0xa0 ≤ n && n ≤ 0xfffd) || 0x10000 ≤ n

/-- The text with all line ends of one kind. -/
def alikeBreaks : List Char → List Char
  | [] => []
  | '\r' :: '\n' :: cs => '\n' :: alikeBreaks cs
  | c :: cs => (if c = '\r' || c = '\u0085' then '\n' else c) :: alikeBreaks cs

/-- The characters at their places, the first one at a given place. -/
def placed (line column : Nat) : List Char → List Cell
  | [] => []
  | c :: cs =>
    ⟨c, line, column⟩ :: if isBreak c then placed (line + 1) 0 cs else placed line (column + 1) cs

/-- The cells of a document.  One with a forbidden character has none. -/
def cells? (text : List Char) : Option (List Cell) :=
  if text.all isAllowed then some (placed 0 0 (alikeBreaks text)) else none

/-- The next cell is white, or there is none. -/
def endsWord : List Cell → Bool
  | [] => true
  | c :: _ => isWhite c.char

/-- A line starts here with the mark of a document's start or end. -/
def isMarker : List Cell → Bool
  | a :: b :: c :: cs =>
    a.column = 0 && (a.char = '-' || a.char = '.') && b.char = a.char && c.char = a.char &&
      endsWord cs
  | _ => false

/-- A list item in block notation starts here. -/
def isDash : List Cell → Bool
  | c :: cs => c.char = '-' && endsWord cs
  | [] => false

/-- Where reading goes on: the cells ahead, and whether only blanks stand before
them on their line.  Keys and list items in block notation start at a fresh point
only. -/
structure Point where
  fresh : Bool
  ahead : List Cell

/-- The line starts here with a byte order mark. -/
def Cell.isOrderMark (c : Cell) : Bool := c.char = '\ufeff' && c.column = 0

/-- Skips white cells and comments.  Before a key in block notation a tab is no
blank: columns could not be told behind it.  A byte order mark at the start of a line
takes a column, as a blank does. -/
def skipFrom (flow fresh comment : Bool) : List Cell → Point
  | [] => ⟨fresh, []⟩
  | c :: cs =>
    if isBreak c.char then skipFrom flow (fresh || !flow) false cs
    else if comment || c.char = ' ' || c.isOrderMark || (c.char = '\t' && (flow || !fresh)) then
      skipFrom flow fresh comment cs
    else if c.char = '#' then skipFrom flow fresh true cs
    else ⟨fresh, c :: cs⟩

/-- The point at the next character that means something. -/
def Point.skip (flow : Bool) (p : Point) : Point := skipFrom flow p.fresh false p.ahead

example : alikeBreaks ['a', '\r', '\n', 'b', '\r'] = ['a', '\n', 'b', '\n'] := by decide
example : (placed 0 0 ['a', '\n', 'b']).map (·.column) = [0, 1, 0] := by decide

end PmemPaths.Yaml
