import PmemPaths.Yaml.Plain

/-!
# Styles

How a text is written as an item of a list, so that it reads as a text and as the
same one.  A plain scalar will do unless it would read as something else; a text
with a line feed becomes a literal block; and what no other style can hold is
written in double quotes with escapes.
-/

namespace PmemPaths.Yaml

/-- A way to write a scalar. -/
inductive Style where
  | plain | single | double | literal
deriving DecidableEq, Repr

/-- The character can be shown as it is.  Of the line ends these are the line feed
and the separators. -/
def isPrintable (c : Char) : Bool :=
  let n := c.toNat
  n = 0x0a || (0x20 ≤ n && n ≤ 0x7e) || (0xa0 ≤ n && n ≤ 0xfffd && n != 0xfeff) || 0x10000 ≤ n

/-- Two neighbours in the text satisfy the relation. -/
def hasNeighbours (r : Char → Char → Bool) (cs : List Char) : Bool :=
  (cs.zip cs.tail).any fun (c, d) => r c d

/-- The text starts with a character, or a mark, that means something there. -/
def startsIndicator (cs : List Char) : Bool :=
  cs.take 3 = ['-', '-', '-'] || cs.take 3 = ['.', '.', '.'] ||
    match cs with
    | [] => false
    | c :: cs =>
      if c = '-' || c = '?' || c = ':' then cs.head?.all isWhite else indicators.contains c

/-- A plain scalar with this text reads as it. -/
def holdsPlain (cs : List Char) : Bool :=
  !startsIndicator cs && cs.head? != some ' ' && cs.getLast? != some ' ' &&
    cs.getLast? != some ':' && cs.all (fun c => isPrintable c && !isBreak c) &&
    !hasNeighbours (fun c d => (c = ':' && isWhite d) || (isWhite c && d = '#')) cs

/-- The characters of the text all can be shown, and no blank ends a line. -/
def holdsLines (cs : List Char) : Bool :=
  cs.all isPrintable && !hasNeighbours (fun c d => c = ' ' && isBreak d) cs

/-- A scalar in single quotes with this text reads as it. -/
def holdsSingle (cs : List Char) : Bool :=
  holdsLines cs && !hasNeighbours (fun c d => isBreak c && d = ' ') cs

/-- The style that a text is written in. -/
def Style.of (s : String) : Style :=
  let cs := s.toList
  if cs.contains '\n' then
    if holdsLines cs && cs.getLast? != some ' ' then .literal else .double
  else if !((boolean? s).isSome || isNull s || isNumeric s) && holdsPlain cs then .plain
  else if holdsSingle cs then .single
  else .double

/-- The text with indentation before each line that follows a line end. -/
def indented (fresh : Bool) : List Char → List Char
  | [] => []
  | c :: cs =>
    if isBreak c then c :: indented true cs
    else (if fresh then [' ', ' ', c] else [c]) ++ indented false cs

/-- A code in hexadecimal, in upper case, with this many digits. -/
def codeText (width n : Nat) : List Char :=
  let digits := (Nat.toDigits 16 n).map Char.toUpper
  List.replicate (width - digits.length) '0' ++ digits

/-- A character in double quotes. -/
def escaped (c : Char) : List Char :=
  let n := c.toNat
  if isPrintable c && !isBreak c && c != doubleQuote && c != backslash then [c]
  else match escapes.find? (·.2 = c) with
    | some (name, _) => [backslash, name]
    | none =>
      if n ≤ 0xff then backslash :: 'x' :: codeText 2 n
      else if n ≤ 0xffff then backslash :: 'u' :: codeText 4 n
      else backslash :: 'U' :: codeText 8 n

/-- The first line of a literal block. -/
def blockStart (cs : List Char) : List Char :=
  let hint := if cs.head?.any fun c => c = ' ' || isBreak c then ['2'] else []
  let chomping := match cs.reverse with
    | [] => ['-']
    | c :: rest =>
      if !isBreak c then ['-'] else if rest.head?.all isBreak then ['+'] else []
  '|' :: hint ++ chomping ++ ['\n']

/-- A text as an item of a list, up to the line end. -/
def written (s : String) : String :=
  let cs := s.toList
  let body := match Style.of s with
    | .plain => cs ++ ['\n']
    | .single =>
      let broken := cs.getLast?.any isBreak
      [singleQuote] ++
        (indented false cs).flatMap (fun c => if c = singleQuote then [c, c] else [c]) ++
        (if broken then [' ', ' '] else []) ++ [singleQuote, '\n']
    | .double => [doubleQuote] ++ cs.flatMap escaped ++ [doubleQuote, '\n']
    | .literal =>
      blockStart cs ++ indented true cs ++ if cs.getLast?.any isBreak then [] else ['\n']
  String.ofList body

example : Style.of "a-b" = .plain := by decide +kernel
example : Style.of "1.5" = .single := by decide +kernel
example : Style.of "yes" = .plain := by decide +kernel
example : Style.of "a\nb" = .literal := by decide +kernel
example : Style.of "a\r\nb" = .double := by decide +kernel
example : written "\t" = "\"\\t\"\n" := by decide +kernel

end PmemPaths.Yaml
