import TypedWasm.Compile
import TypedWasm.Machine.Memory

/-!
# Machine states

The machine that runs instruction listings: a memory, the lines printed so far, the functions loaded
so far and the fuel left. One machine serves a whole session.
-/

namespace TypedWasm

inductive Trap where
  | unreachable
  | outOfBounds (address : Nat)
  | divideByZero
  | integerOverflow
  | indexError (index length : Word)
  | keyError (key : Word)
  | unpackError (expected actual : Word)
  | unknownFunction (name : String)
  | unknownLocal (name : String)
  | stackUnderflow
  | outOfFuel
  /-- The host's own address arithmetic passed the largest signed word. -/
  | hostAddressOverflow
  deriving Repr, DecidableEq, Inhabited

structure Machine where
  memory : Memory
  output : Array String := #[]
  functions : List Func := []
  pageLimit : Option UInt32 := none
  fuel : Nat := 5000000
  deriving Repr, Inhabited

inductive StartFailure where
  | tooManyPages
  | noHeapHead
  deriving Repr, DecidableEq, Inhabited

namespace Machine

def effective (address : Word) (offset : UInt32) : Nat := address.toAddress + offset.toNat

def loadWord (m : Machine) (address : Word) (offset : UInt32) : Except Trap Word :=
  match m.memory.load? (effective address offset) with
  | some value => .ok value
  | none => .error (.outOfBounds (effective address offset))

def storeWord (m : Machine) (address : Word) (offset : UInt32) (value : Word) :
    Except Trap Machine :=
  match m.memory.store? (effective address offset) value with
  | some memory => .ok { m with memory }
  | none => .error (.outOfBounds (effective address offset))

def pages (m : Machine) : Nat := m.memory.pages

def maxPages (m : Machine) : Nat := (m.pageLimit.map UInt32.toNat).getD 65536

/-- Adds pages and gives the old number of pages, or gives `-1` past the limit. -/
def grow (m : Machine) (delta : UInt32) : Word × Machine :=
  let new := m.pages + delta.toNat
  if new < UInt32.size ∧ new ≤ m.maxPages then
    (Word.ofNat m.pages, { m with memory := { m.memory with pages := new } })
  else (-1, m)

def heapHead (m : Machine) : Word := m.memory.word heapHeadAddress.toNat

/-- A fresh machine: memory of the least size, with the heap head set. -/
def start? (config : Config) : Except StartFailure Machine :=
  let pages := config.minMemoryPages.toNat
  if UInt32.size ≤ pages * pageSize.toNat then .error .tooManyPages
  else if pages = 0 then .error .noHeapHead
  else
    let memory : Memory := { pages }
    .ok { memory := memory.setWord heapHeadAddress.toNat (Word.ofUInt32 config.heapStart)
          pageLimit := config.maxMemoryPages }

/-- Loads the functions of a unit. A later function replaces an earlier one of the same name; memory
is kept. -/
def load (m : Machine) (u : CompiledUnit) : Machine :=
  { m with functions := u.allFunctions.reverse ++ m.functions }

def function? (m : Machine) (name : String) : Option Func := m.functions.find? (·.name == name)

end Machine

end TypedWasm
