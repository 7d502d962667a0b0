/-!
# Percentages

A share of a total as a percentage with two decimals.  The quotient is first
rounded to 53 significant bits, the nearest such number and the even one of two,
and that number is then rounded to two decimals in the same way.
-/

namespace PmemPaths.Text

/-- A quotient rounded to the nearest integer, and to the even one of two. -/
def roundDiv (num den : Nat) : Nat :=
  let q := num / den
  let r := 2 * (num % den)
  if r < den ∨ (r = den ∧ q % 2 = 0) then q else q + 1

/-- A positive quotient below `2 ^ 52` to 53 significant bits: an integer and the
number of binary places it has. -/
def roundBinary (num den : Nat) : Nat × Nat :=
  let places := 116 - (num * Nat.pow 2 64 / den).log2
  (roundDiv (num * Nat.pow 2 places) den, places)

/-- A number of hundredths, written with two decimals. -/
def hundredths (n : Nat) : String :=
  let rest := n % 100
  toString (n / 100) ++ "." ++ (if rest < 10 then "0" else "") ++ toString rest

/-- A share of a total as a percentage.  Of nothing, every share is zero. -/
def percent (part total : Nat) : String :=
  if part = 0 ∨ total = 0 then "0.00"
  else
    let (n, places) := roundBinary (part * 100) total
    hundredths (roundDiv (n * 100) (Nat.pow 2 places))

example : percent 1 3 = "33.33" := by decide +kernel
example : percent 1 8 = "12.50" := by decide +kernel
example : percent 5 5 = "100.00" := by decide +kernel

end PmemPaths.Text
