import Mathlib.Algebra.Order.Ring.Nat
import TypedWasm.Binary.Module

/-!
# Reading module bytes

The binary grammar of WebAssembly, as a reader, for modules over 32 bit words. It accepts every form
the grammar has: sections may be missing, integers need not be in their shortest form and locals may
come in any number of groups.
-/

namespace TypedWasm

namespace Decode

/-- A reader of the front of some bytes. It gives a value and the bytes that follow. -/
abbrev Parser := StateT (List UInt8) Option

variable {α : Type}

def byte : Parser UInt8 := fun bytes =>
  match bytes with
  | [] => none
  | first :: rest => some (first, rest)

def expect (expected : UInt8) : Parser Unit := do
  guard ((← byte) = expected)

def ofOption : Option α → Parser α
  | some value => pure value
  | none => failure

def unsigned (bits : Nat) : List UInt8 → Option (Nat × List UInt8)
  | [] => none
  | first :: rest =>
    if first.toNat < 128 then
      if first.toNat < 2 ^ bits then some (first.toNat, rest) else none
    else if 7 < bits then
      (unsigned (bits - 7) rest).map fun (high, rest) => (128 * high + (first.toNat - 128), rest)
    else none

def signed (bits : Nat) : List UInt8 → Option (Int × List UInt8)
  | [] => none
  | first :: rest =>
    if first.toNat < 64 then
      if first.toNat < 2 ^ (bits - 1) then some (first.toNat, rest) else none
    else if first.toNat < 128 then
      if 128 ≤ first.toNat + 2 ^ (bits - 1) then some (first.toNat - 128, rest) else none
    else if 7 < bits then
      (signed (bits - 7) rest).map fun (high, rest) => (128 * high + (first.toNat - 128), rest)
    else none

def index : Parser Nat := unsigned 32

/-- A count that is kept as 32 bits. -/
def index32 : Parser UInt32 := do return UInt32.ofNat (← index)

def many (item : Parser α) : Nat → Parser (List α)
  | 0 => pure []
  | count + 1 => do return (← item) :: (← many item count)

/-- Items with their number in front. -/
def vector (item : Parser α) : Parser (List α) := do many item (← index)

def whole (content : Parser α) (bytes : List UInt8) : Option α :=
  match content.run bytes with
  | some (value, []) => some value
  | _ => none

/-- Content with the number of its bytes in front. -/
def sized (content : Parser α) : Parser α := do ofOption (whole content (← vector byte))

/-- The items of a section, which has none when it is missing. -/
def sectionOf (id : UInt8) (item : Parser α) : Parser (List α) := fun bytes =>
  if bytes.head? = some id then (do expect id; sized (vector item)).run bytes
  else some ([], bytes)

def atMostOne : List α → Parser (Option α)
  | [] => pure none
  | [item] => pure (some item)
  | _ => failure

def numericOp? : UInt8 → Option NumericOp
  | 0x46 => some .eq
  | 0x47 => some .ne
  | 0x48 => some .ltS
  | 0x4a => some .gtS
  | 0x4b => some .gtU
  | 0x4c => some .leS
  | 0x4e => some .geS
  | 0x6a => some .add
  | 0x6b => some .sub
  | 0x6c => some .mul
  | 0x6d => some .divS
  | 0x6f => some .remS
  | 0x71 => some .and
  | 0x72 => some .or
  | 0x76 => some .shrU
  | _ => none

inductive Ending where
  /-- With its block. -/
  | block
  /-- With the first branch of a conditional. -/
  | branch
  deriving Repr, DecidableEq, Inhabited

def ending? : UInt8 → Option Ending
  | 0x0b => some .block
  | 0x05 => some .branch
  | _ => none

/-- The operand of a memory access, aligned to words. -/
def memoryOperand : Parser UInt32 := do
  guard ((← index) = 2)
  index32

/-- The type of a block, which says whether it leaves a word. -/
def blockType : Parser Bool := do
  match ← byte with
  | 0x40 => return false
  | 0x7f => return true
  | _ => failure

def body? : List Op × Ending → Option (List Op)
  | (body, .block) => some body
  | (_, .branch) => none

def closed (inner : Parser (List Op × Ending)) : Parser (List Op) := do ofOption (body? (← inner))

/-- A conditional after its first branch. -/
def alternative (inner : Parser (List Op × Ending)) (yields : Bool) : List Op × Ending → Parser Op
  | (thenBody, .block) => pure (.cond yields thenBody [])
  | (thenBody, .branch) => do return .cond yields thenBody (← closed inner)

/-- The rest of the instruction that starts with a byte. `inner` reads listings inside of it. -/
def operands (inner : Parser (List Op × Ending)) (code : UInt8) : Parser Op :=
  match code with
  | 0x00 => pure .unreachable
  | 0x01 => pure .nop
  | 0x02 => do
    expect 0x40
    return .block (← closed inner)
  | 0x03 => do
    expect 0x40
    return .loop (← closed inner)
  | 0x04 => do
    let yields ← blockType
    alternative inner yields (← inner)
  | 0x0c => do return .br (← index32)
  | 0x0d => do return .brIf (← index32)
  | 0x0f => pure .ret
  | 0x10 => do return .call (← index)
  | 0x1a => pure .drop
  | 0x20 => do return .localGet (← index)
  | 0x21 => do return .localSet (← index)
  | 0x22 => do return .localTee (← index)
  | 0x28 => do return .load (← memoryOperand)
  | 0x36 => do return .store (← memoryOperand)
  | 0x3f => do
    expect 0x00
    return .memorySize
  | 0x40 => do
    expect 0x00
    return .memoryGrow
  | 0x41 => do
    let value ← (signed 32 : Parser Int)
    return .const (Word.ofInt value)
  | 0x45 => pure .eqz
  | code => do return .numeric (← ofOption (numericOp? code))

/-- Instructions and how they end. Every step takes a byte, and `depth` bounds the steps. -/
def listing : (depth : Nat) → Parser (List Op × Ending)
  | 0 => failure
  | depth + 1 => do
    let code ← byte
    match ending? code with
    | some ending => return ([], ending)
    | none =>
      let first ← operands (listing depth) code
      let (rest, ending) ← listing depth
      return (first :: rest, ending)

/-- Instructions that end with their block. There are no more of them than bytes. -/
def expr : Parser (List Op) := fun bytes => (closed (listing bytes.length)).run bytes

def name : Parser String := do ofOption (String.fromUTF8? (← vector byte).toByteArray)

def wordType : Parser Unit := expect 0x7f

def funcType : Parser FuncType := do
  expect 0x60
  let params ← vector wordType
  let results ← vector wordType
  guard (results.length ≤ 1)
  return { params := params.length, returnsValue := results.length = 1 }

def limits : Parser Limits := do
  match ← byte with
  | 0x00 => return { minimum := ← index32, maximum := none }
  | 0x01 => return { minimum := ← index32, maximum := some (← index32) }
  | _ => failure

def importKind : Parser ImportKind := do
  match ← byte with
  | 0x00 => return .function (← index)
  | 0x02 => return .memory (← limits)
  | _ => failure

def importEntry : Parser Import := do
  return { module := ← name, name := ← name, kind := ← importKind }

def exportKind : Parser ExportKind := do
  match ← byte with
  | 0x00 => return .function (← index)
  | 0x02 =>
    guard ((← index) = 0)
    return .memory
  | _ => failure

def exportEntry : Parser Export := do
  return { name := ← name, kind := ← exportKind }

def localGroup : Parser Nat := do
  let count ← index
  wordType
  return count

def codeEntry : Parser CodeEntry :=
  sized do
    let groups ← vector localGroup
    guard (groups.sum < 2 ^ 32)
    return { locals := groups.sum, body := ← expr }

def isZero : List Op → Bool
  | [.const value] => value == 0
  | _ => false

/-- Bytes that memory holds at address zero from the start. -/
def dataEntry : Parser (List UInt8) := do
  guard ((← index) = 0)
  guard (isZero (← expr))
  vector byte

/-- Bytes that must be the next. -/
def expectAll : List UInt8 → Parser Unit
  | [] => pure ()
  | first :: rest => do
    expect first
    expectAll rest

def module : Parser Module := do
  expectAll [0x00, 0x61, 0x73, 0x6d, 0x01, 0x00, 0x00, 0x00]
  let types ← sectionOf 1 funcType
  let imports ← sectionOf 2 importEntry
  let functions ← sectionOf 3 index
  let memories ← sectionOf 5 limits
  let exports ← sectionOf 7 exportEntry
  let codes ← sectionOf 10 codeEntry
  let segments ← sectionOf 11 dataEntry
  guard (functions.length = codes.length)
  return { types, imports, functions, exports, codes,
           memory := ← atMostOne memories, data := ← atMostOne segments }

end Decode

def Module.decode (bytes : List UInt8) : Option Module := Decode.whole Decode.module bytes

end TypedWasm
