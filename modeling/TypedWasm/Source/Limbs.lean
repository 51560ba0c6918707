/-!
# Integers in base 2³²

An integer is stored as a sign and the digits of its magnitude in base `2³²`, lowest digit first and
with no zero digit at the top. Zero has no digits.
-/

namespace TypedWasm.Limbs

def base : Nat := 4294967296

/-- At most `count` digits of `n`, lowest first. -/
def digits : (count : Nat) → (n : Nat) → List UInt32
  | 0, _ => []
  | count + 1, n => if n = 0 then [] else UInt32.ofNat (n % base) :: digits count (n / base)

def ofNat (n : Nat) : List UInt32 := digits (n.log2 / 32 + 1) n

/-- The number with the given digits. Zero digits at the top do not change it. -/
def toNat : List UInt32 → Nat
  | [] => 0
  | limb :: rest => limb.toNat + base * toNat rest

def ofInt (n : Int) : List UInt32 := ofNat n.natAbs

/-- The number of digits, carrying the sign of the integer. -/
def signedCount (n : Int) : Int := n.sign * (ofInt n).length

def toInt (sign : Int) (limbs : List UInt32) : Int := sign.sign * toNat limbs

end TypedWasm.Limbs
