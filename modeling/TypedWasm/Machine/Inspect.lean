import TypedWasm.Machine.State

/-!
# Reading heap objects

How a host reads the objects the generated code leaves in memory.
-/

namespace TypedWasm

namespace Machine

/-- `count` words from an address on. If they do not all lie in memory, the trap is at the first
that does not. -/
def readWords (m : Machine) (address count : Nat) : Except Trap (List Word) :=
  if count = 0 ∨ address + 4 * count ≤ m.memory.size then
    .ok ((List.range count).map fun index => m.memory.word (address + 4 * index))
  else .error (.outOfBounds (address + 4 * ((m.memory.size - address) / 4)))

def charOf (code : Word) : Char :=
  let n := code.toAddress
  if n < 0xD800 ∨ (0xDFFF < n ∧ n < 0x110000) then Char.ofNat n else Char.ofNat 0xFFFD

def readString (m : Machine) (address : Word) : Except Trap String := do
  let length ← m.loadWord address Block.lengthOffset
  let codes ← m.readWords (effective address Block.stringHeader) length.toAddress
  return String.ofList (codes.map charOf)

def readList (m : Machine) (address : Word) : Except Trap (List Word) := do
  let size ← m.loadWord address Block.sizeOffset
  m.readWords (effective address Block.headerSize) size.toAddress

def readTuple (m : Machine) (address : Word) (arity : Nat) : Except Trap (List Word) :=
  m.readWords address.toAddress arity

def readBigint (m : Machine) (address : Word) : Except Trap Int := do
  let count ← m.loadWord address Block.countOffset
  let limbs ← m.readWords (effective address Block.bigintHeader) count.toInt.natAbs
  return Limbs.toInt count.toInt (limbs.map Int32.toUInt32)

def heapWords (m : Machine) (config : Config) : Except Trap (List Word) :=
  let start := config.heapStart.toNat
  m.readWords start ((m.heapHead.toAddress - start + 3) / 4)

end Machine

inductive Value where
  | word (value : Word)
  | integer (value : Int)
  | text (value : String)
  | sequence (items : List Value)
  deriving Repr, Inhabited

namespace Machine

mutual

/-- The value of a word, by its type. Instances and dictionaries stay addresses. -/
def decode (m : Machine) (bigNumbers : Bool) : Ty → Word → Except Trap Value
  | .number, word =>
    if bigNumbers then do return .integer (← m.readBigint word) else .ok (.word word)
  | .string, word => do return .text (← m.readString word)
  | .list element, word => do
    return .sequence (← (← m.readList word).mapM (decode m bigNumbers element))
  | .tuple elements, word => do
    return .sequence (← decodeAll m bigNumbers elements (← m.readTuple word elements.length))
  | _, word => .ok (.word word)

def decodeAll (m : Machine) (bigNumbers : Bool) :
    List Ty → List Word → Except Trap (List Value)
  | ty :: types, word :: words => do
    let value ← decode m bigNumbers ty word
    return value :: (← decodeAll m bigNumbers types words)
  | _, _ => .ok []

end

end Machine

end TypedWasm
