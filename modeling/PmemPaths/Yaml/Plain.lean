import PmemPaths.Yaml.Node

/-!
# Plain scalars

What a scalar stands for when it is written plain.  The spellings are those of the
core schema: `null`, `true` and `false` in lower case, upper case or with a capital,
numbers in base ten, and in bases sixteen, eight and two after `0x`, `0o` and `0b`.
Digits after a leading zero are no number.
-/

namespace PmemPaths.Yaml

/-- The number written in these digits. -/
def numeral? (base : Nat) (cs : List Char) : Option Nat :=
  if cs.isEmpty then none
  else cs.foldlM (fun n c => (digit? base c).map (base * n + ·)) 0

/-- The spellings of a word: in lower case, with a capital, in upper case. -/
def spellings (word : String) : List String :=
  [word, word.capitalize, word.map Char.toUpper]

/-- The truth value a plain scalar stands for. -/
def boolean? (s : String) : Option Bool :=
  if (spellings "true").contains s then some true
  else if (spellings "false").contains s then some false
  else none

/-- The plain scalar stands for nothing. -/
def isNull (s : String) : Bool := s = "" || s = "~" || (spellings "null").contains s

/-- The text without a sign. -/
def unsigned : List Char → List Char
  | c :: cs => if c = '+' || c = '-' then cs else c :: cs
  | [] => []

/-- Digits that look like a number and are none, because the first is a zero. -/
def isZeroLed (cs : List Char) : Bool :=
  match unsigned cs with
  | '0' :: d :: ds => (d :: ds).all Char.isDigit
  | _ => false

/-- The number after a mark of its base. -/
def based? : List Char → Option Nat
  | '0' :: 'x' :: cs => numeral? 16 cs
  | '0' :: 'o' :: cs => numeral? 8 cs
  | '0' :: 'b' :: cs => numeral? 2 cs
  | _ => none

/-- The number a plain scalar stands for, if it has no minus sign and is below a
bound. -/
def natural? (bound : Nat) (s : String) : Option Nat :=
  let cs := s.toList
  let digits := match cs with
    | '+' :: ds => ds
    | _ => cs
  match (based? digits).filter (· < bound) with
  | some n => some n
  | none => if isZeroLed cs then none else (numeral? 10 digits).filter (· < bound)

/-- Numbers from here on are beyond the floating-point ones: half a unit in the last
place above the largest. -/
def floatBound : Nat := Nat.pow 2 1024 - Nat.pow 2 970

/-- The digits, read as an integer and scaled by a power of ten, are a finite
floating-point number. -/
def isFinite (digits : List Char) (scale : Int) : Bool :=
  match numeral? 10 digits with
  | none => false
  | some 0 => true
  | some n =>
    if 0 ≤ scale then scale ≤ 400 && n * Nat.pow 10 scale.toNat < floatBound
    else n < floatBound * Nat.pow 10 (min scale.natAbs digits.length)

/-- The plain scalar is a number with a point or an exponent, or an integer. -/
def isDecimal (s : String) : Bool :=
  let cs := unsigned s.toList
  let whole := cs.takeWhile Char.isDigit
  let rest := cs.drop whole.length
  let (part, rest) := match rest with
    | '.' :: ds => (ds.takeWhile Char.isDigit, ds.dropWhile Char.isDigit)
    | _ => ([], rest)
  let exponent : Option Int := match rest with
    | [] => some 0
    | e :: ds =>
      if e = 'e' || e = 'E' then
        (numeral? 10 (unsigned ds)).map fun n => if ds.head? = some '-' then -n else n
      else none
  exponent.any fun n => isFinite (whole ++ part) (n - part.length)

/-- The plain scalar stands for a number, or could be taken for one. -/
def isNumeric (s : String) : Bool :=
  let cs := s.toList
  let negative := match cs with
    | '-' :: ds => (based? ds).any (· ≤ Nat.pow 2 127)
    | _ => false
  let special := [".inf", ".Inf", ".INF"]
  (natural? (Nat.pow 2 128) s).isSome || negative || isZeroLed cs || isDecimal s ||
    (special ++ special.map ("+" ++ ·) ++ special.map ("-" ++ ·) ++
      [".nan", ".NaN", ".NAN"]).contains s

/-! ## Reading nodes -/

namespace Node

/-- The text of a scalar, however it is written. -/
def text? : Node → Option String
  | scalar _ s => some s
  | _ => none

/-- The truth value of a plain scalar. -/
def boolean? : Node → Option Bool
  | scalar true s => Yaml.boolean? s
  | _ => none

/-- The number of a plain scalar below a bound. -/
def natural? (bound : Nat) : Node → Option Nat
  | scalar true s => Yaml.natural? bound s
  | _ => none

/-- The items of a list.  A node that is left out is an empty list. -/
def items? : Node → Option (List Node)
  | list ns => some ns
  | scalar true "" => some []
  | _ => none

/-- The entries of a mapping.  A node that is left out is an empty mapping. -/
def entries? : Node → Option (List (Node × Node))
  | mapping es => some es
  | scalar true "" => some []
  | _ => none

end Node

end PmemPaths.Yaml
