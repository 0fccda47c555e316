import ElmNavigator.Json.Basic

/-!
# Numbers

A number keeps as many of its digits as fit 64 bits.  Digits of the whole part beyond that count as
zeros, digits of the fraction beyond that are dropped.  What is left is a significand and a power of
ten; a number is in range if the product of the two, each rounded to a double, is still a finite
double.
-/

namespace ElmNavigator
namespace Json

def significandLimit : Nat := 0xFFFFFFFFFFFFFFFF

def digitValue (c : Char) : Nat :=
  c.toNat - '0'.toNat

/-- Puts digits of a whole part behind a significand, and counts those that no longer fit. -/
def takeWhole (significand : Nat) : List Char -> Nat × Nat
  | [] => (significand, 0)
  | c :: cs =>
      let next := significand * 10 + digitValue c
      if next ≤ significandLimit then takeWhole next cs else (significand, cs.length + 1)

/-- Puts digits of a fraction behind a significand, and counts those that fit. -/
def takeFraction (significand : Nat) : List Char -> Nat × Nat
  | [] => (significand, 0)
  | c :: cs =>
      let next := significand * 10 + digitValue c
      if next ≤ significandLimit then
        let (result, count) := takeFraction next cs
        (result, count + 1)
      else (significand, 0)

/-- The double nearest to a natural number, which is again one; of two that are equally near, the one
with an even significand.  Its size is not limited. -/
def roundToDouble (n : Nat) : Nat :=
  let unit := Nat.pow 2 (n.log2 + 1 - 53)
  let quotient := n / unit
  let rest := n % unit
  let up := unit < 2 * rest || (unit = 2 * rest && quotient % 2 = 1)
  (if up then quotient + 1 else quotient) * unit

/-- Least number that rounds to no finite double. -/
def doubleLimit : Nat :=
  Nat.pow 2 1024 - Nat.pow 2 970

def greatestPowerOfTen : Nat := 308

def isInRange (significand : Nat) (exponent : Int) : Bool :=
  if significand = 0 || exponent ≤ 0 then true
  else if exponent > greatestPowerOfTen then false
  else roundToDouble significand * roundToDouble (Nat.pow 10 exponent.toNat) < doubleLimit

def digitsValue (digits : List Char) : Nat :=
  digits.foldl (fun n c => n * 10 + digitValue c) 0

/-- The integer of a number without fraction and exponent, if it fits 64 bits.  Minus zero is no
integer. -/
def integer? (negative : Bool) (whole : List Char) : Option Int :=
  let magnitude := digitsValue whole
  if negative then
    if 0 < magnitude ∧ magnitude ≤ 0x8000000000000000 then some (-magnitude) else none
  else if magnitude ≤ significandLimit then some magnitude
  else none

def real? (negative : Bool) (whole fraction : List Char) (exponent : Int) : Option Json :=
  let (significand, dropped) := takeWhole 0 whole
  let (significand, used) := takeFraction significand fraction
  let exponent := exponent + dropped - used
  if isInRange significand exponent then
    some (.real (if negative then -significand else significand) exponent)
  else none

def number? (negative : Bool) (whole fraction : List Char) (exponent : Option Int) : Option Json :=
  match fraction, exponent, integer? negative whole with
  | [], none, some i => some (.integer i)
  | _, _, _ => real? negative whole fraction (exponent.getD 0)

end Json
end ElmNavigator
