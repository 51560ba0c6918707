/-!
# Variable length integers

Integers as bytes of seven bits each, lowest first, every byte but the last with its high bit set.
The shortest form is written.
-/

namespace TypedWasm.Leb128

/-- The bytes of a natural number, with at most `more` bytes before the last. -/
def unsignedBytes : (more : Nat) → (n : Nat) → List UInt8
  | 0, n => [UInt8.ofNat (n % 128)]
  | more + 1, n =>
    if n < 128 then [UInt8.ofNat n] else UInt8.ofNat (n % 128 + 128) :: unsignedBytes more (n / 128)

def unsigned (n : Nat) : List UInt8 := unsignedBytes (n.log2 / 7) n

/-- The bytes of an integer, with at most `more` bytes before the last. The last byte's second
highest bit carries the sign. -/
def signedBytes : (more : Nat) → (n : Int) → List UInt8
  | 0, n => [UInt8.ofNat (n % 128).toNat]
  | more + 1, n =>
    if -64 ≤ n ∧ n < 64 then [UInt8.ofNat (n % 128).toNat]
    else UInt8.ofNat ((n % 128).toNat + 128) :: signedBytes more (n / 128)

def signed (n : Int) : List UInt8 := signedBytes (n.natAbs.log2 / 7 + 1) n

end TypedWasm.Leb128
