import TypedWasm.Config
import TypedWasm.Machine.Sparse

/-!
# Linear memory

A memory of whole pages whose bytes are zero until they are written. Words are stored low byte first
and may start at any address. The store keeps aligned words, so an aligned access is one lookup.
-/

namespace TypedWasm

/-- The bits of the index of an aligned word. An address is below `2³³`, since it is the sum of a
word and an offset. -/
def cellBits : Nat := 32

structure Memory where
  pages : Nat
  cells : Sparse Word := .empty
  deriving Repr, Inhabited

namespace Memory

def size (memory : Memory) : Nat := pageSize.toNat * memory.pages

def cell (memory : Memory) (index : Nat) : Word := memory.cells.get 0 cellBits index

def setCell (memory : Memory) (index : Nat) (value : Word) : Memory :=
  { memory with cells := memory.cells.set cellBits index value }

def byte (memory : Memory) (address : Nat) : UInt8 :=
  (memory.cell (address / 4)).byte (UInt32.ofNat (address % 4))

def setByte (memory : Memory) (address : Nat) (value : UInt8) : Memory :=
  let old := memory.cell (address / 4)
  memory.setCell (address / 4) <|
    match address % 4 with
    | 0 => .ofBytes value (old.byte 1) (old.byte 2) (old.byte 3)
    | 1 => .ofBytes (old.byte 0) value (old.byte 2) (old.byte 3)
    | 2 => .ofBytes (old.byte 0) (old.byte 1) value (old.byte 3)
    | _ => .ofBytes (old.byte 0) (old.byte 1) (old.byte 2) value

def word (memory : Memory) (address : Nat) : Word :=
  if address % 4 = 0 then memory.cell (address / 4)
  else .ofBytes (memory.byte address) (memory.byte (address + 1)) (memory.byte (address + 2))
    (memory.byte (address + 3))

def setWord (memory : Memory) (address : Nat) (value : Word) : Memory :=
  if address % 4 = 0 then memory.setCell (address / 4) value
  else
    (((memory.setByte address (value.byte 0)).setByte (address + 1) (value.byte 1)).setByte
      (address + 2) (value.byte 2)).setByte (address + 3) (value.byte 3)

/-- The word at an address, if all of it lies in the memory. -/
def load? (memory : Memory) (address : Nat) : Option Word :=
  if address + 4 ≤ memory.size then some (memory.word address) else none

/-- Writes the word at an address, if all of it lies in the memory. -/
def store? (memory : Memory) (address : Nat) (value : Word) : Option Memory :=
  if address + 4 ≤ memory.size then some (memory.setWord address value) else none

end Memory

end TypedWasm
