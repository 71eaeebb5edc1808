import Goward.Json.Strings

/-!
# JSON numbers

A number is never wanted, so reading one only finds out in which way it is refused, or gets past it.
A number in the place of something else is malformed if it is too large for a double, and mistyped
otherwise. Its size is judged as follows. The digits are taken into a significand below 2^64; those
that no longer fit raise the exponent if they stand before the point and are ignored behind it. The
significand and the power of ten are each rounded to a double, and so is their product.
-/

namespace Goward.Json

/-- Rounds a number to 53 significant bits, a tie to the even neighbour. -/
def roundDouble (n : Nat) : Nat :=
  if n < Nat.pow 2 53 then n
  else
    let unit := Nat.pow 2 (n.log2 - 52)
    let q := n / unit
    let r := 2 * (n % unit)
    if unit < r ∨ (r = unit ∧ q % 2 = 1) then (q + 1) * unit else q * unit

/-- Whether a significand with a power of ten is too large for a double. -/
def isTooLarge (significand : Nat) (exponent : Int) : Bool :=
  if exponent < 0 then false
  else if 308 < exponent then significand != 0
  else
    let power := roundDouble (Nat.pow 10 exponent.toNat)
    decide (Nat.pow 2 1024 ≤ roundDouble (roundDouble significand * power))

/-- The value of a decimal digit. -/
def digitValue (c : Char) : Nat := c.toNat - 0x30

/-- The least number that is too large for a significand. -/
def significandLimit : Nat := Nat.pow 2 64

/-- Takes the digits before the point into a significand and an exponent. -/
def takeInteger : Nat → Int → List Char → Nat × Int
  | m, e, [] => (m, e)
  | m, e, c :: s =>
    if e = 0 ∧ m * 10 + digitValue c < significandLimit then takeInteger (m * 10 + digitValue c) e s
    else takeInteger m (e + 1) s

/-- Takes the digits behind the point into a significand and an exponent. -/
def takeFraction : Nat → Int → List Char → Nat × Int
  | m, e, [] => (m, e)
  | m, e, c :: s =>
    if m * 10 + digitValue c < significandLimit then takeFraction (m * 10 + digitValue c) (e - 1) s
    else (m, e)

/-- The number that digits stand for. -/
def natOfDigits (s : List Char) : Nat := s.foldl (fun n c => n * 10 + digitValue c) 0

/-- How a complete number is refused. -/
def refuseSize (significand : Nat) (exponent : Int) : Failure :=
  if isTooLarge significand exponent then .malformed else .mistyped

/-- How a number is refused, from what stands behind the `e`. -/
def refuseExponent (m : Nat) (e : Int) (s : List Char) : Failure :=
  let (negative, s) := match s with
    | '-' :: s => (true, s)
    | '+' :: s => (false, s)
    | s => (false, s)
  let digits := s.takeWhile Char.isDigit
  if s.isEmpty then .cutShort
  else if digits.isEmpty then .malformed
  else if negative then refuseSize m (e - natOfDigits digits)
  else refuseSize m (e + natOfDigits digits)

/-- How a number is refused, from what stands behind its digits. -/
def refuseFrom (m : Nat) (e : Int) : List Char → Failure
  | [] => refuseSize m e
  | c :: s => if c = 'e' ∨ c = 'E' then refuseExponent m e s else refuseSize m e

/-- How a number is refused, from what stands behind its integer part. -/
def refuseFraction (m : Nat) (e : Int) : List Char → Failure
  | '.' :: s =>
    let digits := s.takeWhile Char.isDigit
    if s.isEmpty then .cutShort
    else if digits.isEmpty then .malformed
    else
      let (m, e) := takeFraction m e digits
      refuseFrom m e (s.dropWhile Char.isDigit)
  | s => refuseFrom m e s

/-- How a number in the place of something else is refused, behind its sign. -/
def refuseNumber : List Char → Failure
  | [] => .cutShort
  | c :: s =>
    if !c.isDigit then .malformed
    else if c = '0' then
      match s with
      | d :: _ => if d.isDigit then .malformed else refuseFraction 0 0 s
      | [] => refuseFraction 0 0 s
    else
      let (m, e) := takeInteger 0 0 ((c :: s).takeWhile Char.isDigit)
      refuseFraction m e (s.dropWhile Char.isDigit)

/-- Gets past one or more digits. -/
def skipDigits : List Char → Except Failure (List Char)
  | [] => .error .malformed
  | c :: s => if c.isDigit then .ok (s.dropWhile Char.isDigit) else .error .malformed

/-- Gets past an exponent, if there is one. -/
def skipExponent : List Char → Except Failure (List Char)
  | [] => .ok []
  | c :: s =>
    if c = 'e' ∨ c = 'E' then
      match s with
      | '+' :: s => skipDigits s
      | '-' :: s => skipDigits s
      | s => skipDigits s
    else .ok (c :: s)

/-- Gets past a fraction and an exponent, if there are any. -/
def skipFraction : List Char → Except Failure (List Char)
  | '.' :: s => skipDigits s >>= skipExponent
  | s => skipExponent s

/-- Gets past a number, behind its sign. An unfinished number is malformed even at the end of the
text. -/
def skipNumber : List Char → Except Failure (List Char)
  | '0' :: s =>
    match s with
    | d :: _ => if d.isDigit then .error .malformed else skipFraction s
    | [] => .ok []
  | s => skipDigits s >>= skipFraction

end Goward.Json
