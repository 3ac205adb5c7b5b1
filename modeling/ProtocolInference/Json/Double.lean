import ProtocolInference.Json.Reader
import ProtocolInference.Word

/-!
Which numerals are in the range of doubles.

A double has 53 significant bits and lies below two to the power of 1024.
A decimal numeral becomes one in three roundings: its leading digits, as
many as a word can hold, are rounded to a double, and so is a power of
ten, and so is the product of the two. The digits behind the leading ones
count by their number alone.

Only the last rounding can leave the range, and only if there is a
positive power of ten to multiply by. Then all three are roundings of
natural numbers, and exact as such.
-/

namespace ProtocolInference.Json

/-- The nearest number of no more than 53 significant bits. Halfway
between two of them it is the one that is even in its last bit. -/
def roundDouble (n : Nat) : Nat :=
  let unit := 1 <<< (n.log2 + 1 - 53)
  let quotient := n / unit
  let double := 2 * (n % unit)
  if unit < double ∨ (unit = double ∧ quotient % 2 = 1) then (quotient + 1) * unit
  else quotient * unit

/-- Rounding goes no further than half the distance of two doubles. -/
theorem roundDouble_near (n : Nat) :
    2 * (roundDouble n - n) ≤ 1 <<< (n.log2 + 1 - 53) ∧
      2 * (n - roundDouble n) ≤ 1 <<< (n.log2 + 1 - 53) := by
  have positive : 0 < 1 <<< (n.log2 + 1 - 53) := by
    rw [Nat.one_shiftLeft]
    exact Nat.two_pow_pos _
  unfold roundDouble
  generalize 1 <<< (n.log2 + 1 - 53) = unit at positive
  have parts := Nat.div_add_mod' n unit
  have below := Nat.mod_lt n positive
  dsimp only
  rw [Nat.add_one_mul (n / unit) unit]
  generalize n / unit * unit = multiple at parts
  split <;> omega

/-- A number of no more than 53 bits stays as it is. -/
theorem roundDouble_eq_self {n : Nat} (h : n.log2 < 53) : roundDouble n = n := by
  have : n.log2 + 1 - 53 = 0 := by omega
  simp [roundDouble, this, Nat.mod_one]

/-- The bound of the doubles: two to the power of 1024. -/
def doubleBound : Nat := 1 <<< 1024

structure Numeral where
  /-- The digits before the point. -/
  whole : List Char
  /-- The digits behind the point. -/
  fraction : List Char
  /-- The power of ten by which the number is multiplied. -/
  exponent : Int
  deriving DecidableEq

namespace Numeral

/-- The exponent, which begins with the letter that announces it. -/
def exponentOf : List Char → Int
  | _ :: '-' :: digits => -digitsValue digits
  | _ :: '+' :: digits => digitsValue digits
  | _ :: digits => digitsValue digits
  | [] => 0

/-- The numeral that a number is written as. -/
def ofWritten (w : List Char) : Numeral :=
  let w := w.dropWhile (· = '-')
  let whole := w.takeWhile Char.isDigit
  match w.dropWhile Char.isDigit with
  | '.' :: rest =>
    ⟨whole, rest.takeWhile Char.isDigit, exponentOf (rest.dropWhile Char.isDigit)⟩
  | rest => ⟨whole, [], exponentOf rest⟩

/-- As many digits behind those of a number as a word can hold, and the
digits that are left over. -/
def leading (n : Nat) : List Char → Nat × List Char
  | [] => (n, [])
  | c :: digits =>
    let next := n * 10 + (c.toNat - '0'.toNat)
    if next < wordSize then leading next digits else (n, c :: digits)

def isInRange (a : Numeral) : Bool :=
  let (whole, wholeLeft) := leading 0 a.whole
  let (significand, fractionLeft) := leading whole a.fraction
  let exponent := a.exponent + wholeLeft.length - a.fraction.length + fractionLeft.length
  significand = 0 || exponent ≤ 308 &&
    roundDouble (roundDouble significand * roundDouble (Nat.pow 10 exponent.toNat)) < doubleBound

end Numeral

end ProtocolInference.Json
