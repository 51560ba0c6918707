import TypedWasm.Word

/-!
# Generator configuration

How numbers are represented, how memory is laid out and what the emitted module imports.
-/

namespace TypedWasm

def wordSize : UInt32 := 4

def pageSize : UInt32 := 65536

def heapHeadAddress : UInt32 := 0

def firstGlobalSlot : UInt32 := 1

def pagesBelow (address : Nat) : Nat := (pageSize.toNat - 1 + address) / pageSize.toNat

inductive NumberRepr where
  | native
  | bigint
  deriving Repr, DecidableEq, Inhabited

structure Config where
  numberRepr : NumberRepr := .native
  listBoundsCheck : Bool := true
  /-- Element places every list literal reserves past its contents. -/
  listGrowthSlack : UInt32 := 10
  heapStart : UInt32 := 65536
  minMemoryPages : UInt32 := 2
  maxMemoryPages : Option UInt32 := some 256
  importMemory : Bool := false
  memoryImportModule : String := "js"
  memoryImportName : String := "mem"
  intrinsicsModule : String := "imports"
  validateOutput : Bool := true
  deriving Repr, DecidableEq, Inhabited

namespace Config

def session : Config := { importMemory := true }

def bigNumbers (config : Config) : Bool := config.numberRepr = .bigint

def maxGlobalSlot (config : Config) : Checked UInt32 := Offset.sub (config.heapStart / wordSize) 1

end Config

end TypedWasm
