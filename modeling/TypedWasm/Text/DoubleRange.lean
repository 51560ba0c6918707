/-!
# The range of doubles

Both text formats refuse a decimal number that is too large for a double, although no setting and no
field of a program is fractional.
-/

namespace TypedWasm.DoubleRange

/-- The least number that no longer rounds to a finite double. -/
def limit : Nat := Nat.pow 2 1024 - Nat.pow 2 970

/-- Whether `digits * 10 ^ exponent` rounds to a finite double. Numbers far from the limit are told
by their number of digits. -/
def contains (digits : Nat) (exponent : Int) : Bool :=
  let places : Int := exponent + (Nat.toDigits 10 digits).length
  if digits = 0 ∨ places < 300 then true
  else if 400 < places then false
  else if exponent < 0 then digits < limit * Nat.pow 10 exponent.natAbs
  else digits * Nat.pow 10 exponent.natAbs < limit

end TypedWasm.DoubleRange
