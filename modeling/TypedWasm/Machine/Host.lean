import TypedWasm.Machine.Inspect

/-!
# Host intrinsics at work

What each intrinsic does when the generated code calls it. Printing adds a line to the output and
gives the printed word back; big integers are read from memory and results are allocated there.
-/

namespace TypedWasm

namespace Machine

/-- A result and the machine after it, whichever way it ended. -/
abbrev Effect (α : Type) := Except Trap α × Machine

def writeWords (m : Machine) (address : Word) : (offset : UInt32) → List Word → Effect Unit
  | _, [] => (.ok (), m)
  | offset, word :: rest =>
    match m.storeWord address offset word with
    | .ok m => writeWords m address (offset + 4) rest
    | .error trap => (.error trap, m)

/-- Allocates a big integer at the heap head. The head moves only when there is room. -/
def allocateBigint (m : Machine) (value : Int) : Effect Word :=
  let words := Lowering.bigintWords value
  let address := m.heapHead
  let after := address.toInt + 4 * words.length
  if 2147483647 < after then (.error .hostAddressOverflow, m)
  else
    let needed := pagesBelow (Word.toAddress (Word.ofInt after))
    let (room, m) :=
      if m.pages < needed then
        let (old, m) := m.grow (UInt32.ofNat (needed - m.pages))
        (old != -1, m)
      else (true, m)
    if room then
      match m.storeWord (Word.ofUInt32 heapHeadAddress) 0 (Word.ofInt after) with
      | .error trap => (.error trap, m)
      | .ok m =>
        match writeWords m address 0 words with
        | (.ok (), m) => (.ok address, m)
        | (.error trap, m) => (.error trap, m)
    else (.error .unreachable, m)

/-- Whether a truncated remainder lies on the other side of zero than the divisor. -/
def crossed (remainder divisor : Int) : Bool :=
  remainder ≠ 0 && (decide (remainder < 0) != decide (divisor < 0))

/-- The quotient rounded towards negative infinity. -/
def floorDiv (left right : Int) : Int :=
  if crossed (left.tmod right) right then left.tdiv right - 1 else left.tdiv right

/-- The remainder with the sign of the divisor. -/
def floorMod (left right : Int) : Int :=
  if crossed (left.tmod right) right then left.tmod right + right else left.tmod right

/-- The arithmetic of an intrinsic on big integers. -/
def bignumArithmetic (intrinsic : Intrinsic) (left right : Int) : Except Trap Int :=
  match intrinsic with
  | .bignumAdd => .ok (left + right)
  | .bignumSub => .ok (left - right)
  | .bignumMul => .ok (left * right)
  | .bignumDiv => if right = 0 then .error .divideByZero else .ok (floorDiv left right)
  | _ => if right = 0 then .error .divideByZero else .ok (floorMod left right)

def bignumComparison (intrinsic : Intrinsic) (left right : Int) : Bool :=
  match intrinsic with
  | .bignumEq => left = right
  | .bignumNe => left ≠ right
  | .bignumLt => left < right
  | .bignumLte => left ≤ right
  | .bignumGt => left > right
  | _ => left ≥ right

def print (m : Machine) (line : String) : Machine := { m with output := m.output.push line }

/-- Prints what was read, and gives the printed word back. -/
def printing (m : Machine) (word : Word) (text : Except Trap String) : Effect Word :=
  match text with
  | .ok text => (.ok word, m.print text)
  | .error trap => (.error trap, m)

/-- The absolute value. The least word is its own. -/
def absolute (word : Word) : Word := if word < 0 then 0 - word else word

def host (m : Machine) (intrinsic : Intrinsic) (args : List Word) : Effect Word :=
  match intrinsic, args with
  | .printNum, [a] => m.printing a (.ok (toString a.toInt))
  | .printStr, [a] => m.printing a (m.readString a)
  | .printBool, [a] => m.printing a (.ok (if a ≠ 0 then "True" else "False"))
  | .printNone, [a] => m.printing a (.ok "None")
  | .printBignum, [a] => m.printing a ((m.readBigint a).map toString)
  | .abs, [a] => (.ok (absolute a), m)
  | .pow, [a, b] => (.ok (Word.power a b), m)
  | .min, [a, b] => (.ok (if b < a then b else a), m)
  | .max, [a, b] => (.ok (if b < a then a else b), m)
  | .indexError, [a, b] => (.error (.indexError a b), m)
  | .keyError, [a] => (.error (.keyError a), m)
  | .unpackError, [a, b] => (.error (.unpackError a b), m)
  | .bignumAdd, [a, b] | .bignumSub, [a, b] | .bignumMul, [a, b] | .bignumDiv, [a, b]
  | .bignumMod, [a, b] =>
    match (do bignumArithmetic intrinsic (← m.readBigint a) (← m.readBigint b)) with
    | .ok value => m.allocateBigint value
    | .error trap => (.error trap, m)
  | _, [a, b] =>
    match (do return bignumComparison intrinsic (← m.readBigint a) (← m.readBigint b)) with
    | .ok holds => (.ok (Word.ofBool holds), m)
    | .error trap => (.error trap, m)
  | _, _ => (.error .stackUnderflow, m)

end Machine

end TypedWasm
