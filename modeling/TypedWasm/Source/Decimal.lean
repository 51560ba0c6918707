import TypedWasm.Source.Literal

/-!
# Decimal text

Integers as decimal text: an optional sign, then digits. Underscores may stand after the first
digit.
-/

namespace TypedWasm

namespace Decimal

def digit? (c : Char) : Option Nat := if c.isDigit then some (c.toNat - 48) else none

def digits? (value : Nat) : List Char → Option Nat
  | [] => some value
  | '_' :: rest => digits? value rest
  | c :: rest => (digit? c).bind fun digit => digits? (value * 10 + digit) rest

def natural? : List Char → Option Nat
  | [] => none
  | c :: rest => (digit? c).bind fun digit => digits? digit rest

def integer? : List Char → Option Int
  | '-' :: rest => (natural? rest).map fun value => -value
  | '+' :: rest => (natural? rest).map Int.ofNat
  | text => (natural? text).map Int.ofNat

end Decimal

def Literal.ofDecimal? (text : String) : Option Literal :=
  (Decimal.integer? text.toList).map Literal.num

end TypedWasm
