/-!
# Machine words and checked offsets

Every value the generated code handles is one 32 bit word. A word is read as a signed number by the
arithmetic instructions and as an unsigned number by memory addressing. The generator's own
quantities (slots, offsets, allocation sizes) are unsigned 32 bit numbers whose arithmetic is
checked: a result that does not fit stops the generator, it never wraps.
-/

namespace TypedWasm

abbrev Word := Int32

namespace Word

/-- Truth values are the words `1` and `0`. -/
def ofBool (b : Bool) : Word := if b then 1 else 0

/-- The word with the same bits as an unsigned quantity. -/
def ofUInt32 (n : UInt32) : Word := n.toInt32

def ofNat (n : Nat) : Word := (UInt32.ofNat n).toInt32

def ofInt (n : Int) : Word := Int32.ofInt n

/-- The unsigned reading of a word, as a natural number. -/
def toAddress (w : Word) : Nat := w.toUInt32.toNat

/-- The little endian byte at position `0`, `1`, `2` or `3`. -/
def byte (w : Word) (position : UInt32) : UInt8 := (w.toUInt32 >>> (8 * position)).toUInt8

def ofBytes (b0 b1 b2 b3 : UInt8) : Word :=
  (b0.toUInt32 ||| (b1.toUInt32 <<< 8) ||| (b2.toUInt32 <<< 16) ||| (b3.toUInt32 <<< 24)).toInt32

/-- The signed number a word holds fits in 32 bits. -/
def fits (n : Int) : Bool := -2147483648 ≤ n && n ≤ 2147483647

/-- `base` to the power whose lowest `bits` binary digits are those of `exponent`, times `acc`. -/
def powerBits : (bits : Nat) → (base : Word) → (exponent : Nat) → (acc : Word) → Word
  | 0, _, _, acc => acc
  | bits + 1, base, exponent, acc =>
    powerBits bits (base * base) (exponent / 2) (if exponent % 2 = 1 then acc * base else acc)

/-- Wrapping exponentiation. The exponent is read unsigned. -/
def power (base exponent : Word) : Word := powerBits 32 base exponent.toAddress 1

end Word

inductive Overflow where
  | add
  | subtract
  | multiply
  deriving Repr, DecidableEq

/-- The result of arithmetic on offsets, or the first operation that overflowed. -/
abbrev Checked (α : Type) := Except Overflow α

namespace Offset

def add (a b : UInt32) : Checked UInt32 :=
  if a.toNat + b.toNat < UInt32.size then .ok (a + b) else .error .add

def sub (a b : UInt32) : Checked UInt32 :=
  if b.toNat ≤ a.toNat then .ok (a - b) else .error .subtract

def mul (a b : UInt32) : Checked UInt32 :=
  if a.toNat * b.toNat < UInt32.size then .ok (a * b) else .error .multiply

end Offset

end TypedWasm
