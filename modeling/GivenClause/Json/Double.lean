import GivenClause.Json.Value

/-! # Numbers in the range of double precision

A number that is looked at must not be too large for double precision. It is measured in steps: the
leading digits that fit in 64 bits are rounded to a double, and so are the power of ten that belongs to
them and the product of both. A number close to the largest double may therefore count as too large, or
as small enough, where its exact value says otherwise.

* `roundToDouble` rounds a natural number to 53 significant bits;
* `JsonNumber.leading` gives the leading digits and their power of ten;
* `JsonNumber.inRange` tells whether the product stays below `2 ^ 1024`. -/

namespace GivenClause

/-! ## Rounding -/

/-- The nearest multiple of `unit`; of two equally near ones that with an even factor. -/
def roundToMultiple (unit n : Nat) : Nat :=
  let factor := n / unit
  let rest := n % unit
  if unit < 2 * rest ∨ (unit = 2 * rest ∧ factor % 2 = 1) then (factor + 1) * unit
  else factor * unit

/-- The nearest number of at most 53 significant bits, in a tie the one whose last bit is zero. -/
def roundToDouble (n : Nat) : Nat :=
  if n < Nat.pow 2 53 then n else roundToMultiple (Nat.pow 2 (n.log2 + 1 - 53)) n

/-- Up to 53 bits nothing is rounded. -/
theorem roundToDouble_of_lt {n : Nat} (h : n < Nat.pow 2 53) : roundToDouble n = n := by
  rw [roundToDouble, if_pos h]

/-! ## Leading digits -/

/-- Leading digits must stay below this bound. -/
def leadingBound : Nat := UInt64.size

/-- The longest prefix of the digits of `n` that stays below the bound, and how many digits were
dropped. -/
def dropDigits (n : Nat) : Nat × Nat :=
  if n < leadingBound then (n, 0)
  else
    let (kept, dropped) := dropDigits (n / 10)
    (kept, dropped + 1)
termination_by n
decreasing_by
  have : 0 < leadingBound := by decide
  omega

/-- Appends digits to `n` as long as it stays below the bound: the result, and how many were
appended. -/
def appendDigits (n : Nat) : List Nat → Nat × Nat
  | [] => (n, 0)
  | digit :: digits =>
    if n * 10 + digit < leadingBound then
      let (extended, appended) := appendDigits (n * 10 + digit) digits
      (extended, appended + 1)
    else (n, 0)

namespace JsonNumber

/-- The leading digits of a number and the power of ten that they are scaled by. Digits of the
fraction are tried also where digits of the whole part were dropped. -/
def leading (n : JsonNumber) : Nat × Int :=
  let (kept, dropped) := dropDigits n.whole
  let (digits, appended) := appendDigits kept n.fraction
  (digits, n.exponent.getD 0 + dropped - appended)

/-- Whether a number is in the range of double precision. Zero always is, and so is a number whose
leading digits are scaled down. -/
def inRange (n : JsonNumber) : Bool :=
  let (digits, exponent) := n.leading
  if digits = 0 ∨ exponent < 0 then true
  else if 308 < exponent then false
  else
    roundToDouble (roundToDouble digits * roundToDouble (Nat.pow 10 exponent.toNat)) <
      Nat.pow 2 1024

end JsonNumber

end GivenClause
