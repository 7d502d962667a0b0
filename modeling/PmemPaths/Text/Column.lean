/-!
# Columns and numerals

Texts filled up to the width of a column, and numbers in hexadecimal.  The width
of a text is its number of characters.
-/

namespace PmemPaths.Text

/-- The text with blanks after it, up to a width. -/
def padRight (width : Nat) (s : String) : String :=
  s ++ String.ofList (List.replicate (width - s.length) ' ')

/-- A number in hexadecimal, in lower case, after `0x`. -/
def hex (n : Nat) : String := "0x" ++ String.ofList (Nat.toDigits 16 n)

/-- The lines of a text.  The last line need not end with a line feed, and a
carriage return before a line feed belongs to the line end. -/
def lines (s : String) : List String :=
  let parts := s.splitOn "\n"
  let ended := parts.dropLast.map fun l =>
    if l.endsWith "\r" then (l.dropEnd 1).toString else l
  match parts.getLast? with
  | none | some "" => ended
  | some l => ended ++ [l]

example : hex 48879 = "0xbeef" := by decide
example : padRight 4 "ab" = "ab  " := by decide

end PmemPaths.Text
