import Shaping.Json.Node

/-!
The node of a number. A number with a fraction or an exponent, or an integer that does not fit 64
bits, is taken for a double, of which only its size matters: one that is too large is no value. The
size is that of a product of two doubles, the leading digits and a power of ten.
-/

namespace Shaping.Json

/-! ### Doubles -/

/-- The double that is nearest to a number, without a bound on its size: 53 bits, and a number in
the middle of two goes to the even one. -/
def roundToDouble (n : Nat) : Nat :=
  let unit := 1 <<< (n.log2 + 1 - 53)
  let below := n / unit
  let excess := 2 * (n % unit)
  if unit < excess ∨ (excess = unit ∧ below % 2 = 1) then (below + 1) * unit else below * unit

/-- The least number that rounds to infinity as a double. -/
def doubleLimit : Nat := 1 <<< 1024 - 1 <<< 970

/-! ### Digits -/

/-- Reads digits behind those of `n` as long as the number fits 64 bits, and gives the digits behind
them. -/
def takeDigits (n : Nat) : List Char → Nat × List Char
  | [] => (n, [])
  | c :: rest =>
    let longer := 10 * n + (c.toNat - '0'.toNat)
    if longer < 1 <<< 64 then takeDigits longer rest else (n, c :: rest)

/-- Whether a number is too large for a double. Digits that no longer fit 64 bits count as zeros in
front of the decimal point, and not at all behind it. -/
def exceedsDouble (whole fraction : List Char) (exponent : Int) : Bool :=
  let (leading, zeros) := takeDigits 0 whole
  let (significand, dropped) := takeDigits leading fraction
  let power := exponent + zeros.length + dropped.length - fraction.length
  significand ≠ 0 && 0 ≤ power &&
    (308 < power ||
      doubleLimit ≤ roundToDouble significand * roundToDouble (Nat.pow 10 power.toNat))

/-- The node of the number with these digits in front of the decimal point and behind it. -/
def numberNode (negative : Bool) (whole fraction : List Char) (exponent : Option Int) : Node :=
  match fraction, exponent, takeDigits 0 whole with
  | [], none, (n, []) =>
    if !negative then .int n else if 0 < n ∧ n ≤ 1 <<< 63 then .int (-n) else .fraction
  | _, _, _ => if exceedsDouble whole fraction (exponent.getD 0) then .overflow else .fraction

end Shaping.Json
