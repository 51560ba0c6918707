import TypedWasm.Binary.Leb128
import TypedWasm.Binary.Module

/-!
# Module bytes

The binary form of a module: a header and seven sections, each written even when it is empty.
-/

namespace TypedWasm

open Leb128

namespace Encode

def wordType : UInt8 := 0x7f

def emptyType : UInt8 := 0x40

def endByte : UInt8 := 0x0b

def elseByte : UInt8 := 0x05

def opcode : NumericOp → UInt8
  | .eq => 0x46
  | .ne => 0x47
  | .ltS => 0x48
  | .gtS => 0x4a
  | .gtU => 0x4b
  | .leS => 0x4c
  | .geS => 0x4e
  | .add => 0x6a
  | .sub => 0x6b
  | .mul => 0x6c
  | .divS => 0x6d
  | .remS => 0x6f
  | .and => 0x71
  | .or => 0x72
  | .shrU => 0x76

/-- The operand of a memory access: words are aligned to four bytes. -/
def memoryOperand (offset : UInt32) : List UInt8 := 0x02 :: unsigned offset.toNat

mutual

/-- The bytes of an instruction. An empty else branch is left out. -/
def op : Op → List UInt8
  | .const value => 0x41 :: signed value.toInt
  | .localGet index => 0x20 :: unsigned index
  | .localSet index => 0x21 :: unsigned index
  | .localTee index => 0x22 :: unsigned index
  | .load offset => 0x28 :: memoryOperand offset
  | .store offset => 0x36 :: memoryOperand offset
  | .numeric code => [opcode code]
  | .eqz => [0x45]
  | .memorySize => [0x3f, 0x00]
  | .memoryGrow => [0x40, 0x00]
  | .call index => 0x10 :: unsigned index
  | .drop => [0x1a]
  | .ret => [0x0f]
  | .unreachable => [0x00]
  | .nop => [0x01]
  | .block body => [0x02, emptyType] ++ ops body ++ [endByte]
  | .loop body => [0x03, emptyType] ++ ops body ++ [endByte]
  | .cond yields thenBody elseBody =>
    [0x04, if yields then wordType else emptyType] ++ ops thenBody ++
    (if elseBody.isEmpty then [] else elseByte :: ops elseBody) ++ [endByte]
  | .br depth => 0x0c :: unsigned depth.toNat
  | .brIf depth => 0x0d :: unsigned depth.toNat

def ops : List Op → List UInt8
  | [] => []
  | first :: rest => op first ++ ops rest

end

def sized (bytes : List UInt8) : List UInt8 := unsigned bytes.length ++ bytes

def name (text : String) : List UInt8 := sized text.toUTF8.toList

def funcType (type : FuncType) : List UInt8 :=
  [0x60] ++ sized (List.replicate type.params wordType) ++
  sized (if type.returnsValue then [wordType] else [])

def limits (limits : Limits) : List UInt8 :=
  match limits.maximum with
  | none => 0x00 :: unsigned limits.minimum.toNat
  | some maximum => 0x01 :: unsigned limits.minimum.toNat ++ unsigned maximum.toNat

def importEntry (entry : Import) : List UInt8 :=
  name entry.module ++ name entry.name ++
  match entry.kind with
  | .function typeIndex => 0x00 :: unsigned typeIndex
  | .memory bounds => 0x02 :: limits bounds

def exportEntry (entry : Export) : List UInt8 :=
  name entry.name ++
  match entry.kind with
  | .function index => 0x00 :: unsigned index
  | .memory => [0x02, 0x00]

def localGroups (count : Nat) : List UInt8 :=
  if count = 0 then [0x00] else 0x01 :: unsigned count ++ [wordType]

def codeEntry (code : CodeEntry) : List UInt8 :=
  sized (localGroups code.locals ++ ops code.body ++ [endByte])

/-- Bytes that memory holds at address zero from the start. -/
def dataEntry (bytes : List UInt8) : List UInt8 := [0x00, 0x41, 0x00, endByte] ++ sized bytes

structure Section where
  id : UInt8
  items : List (List UInt8)
  deriving Repr, Inhabited

namespace Section

def content (part : Section) : List UInt8 := unsigned part.items.length ++ part.items.flatten

def bytes (part : Section) : List UInt8 := part.id :: sized part.content

def itemStart (part : Section) (index : Nat) : Nat :=
  1 + (unsigned part.content.length).length + (unsigned part.items.length).length +
  (part.items.take index).flatten.length

end Section

def header : List UInt8 := [0x00, 0x61, 0x73, 0x6d, 0x01, 0x00, 0x00, 0x00]

end Encode

namespace Module

open Encode

/-- The seven sections of a module, in the order of the format. -/
def sections (m : Module) : List Section :=
  [{ id := 1, items := m.types.map funcType },
   { id := 2, items := m.imports.map importEntry },
   { id := 3, items := m.functions.map unsigned },
   { id := 5, items := m.memory.toList.map limits },
   { id := 7, items := m.exports.map exportEntry },
   { id := 10, items := m.codes.map codeEntry },
   { id := 11, items := m.data.toList.map dataEntry }]

def bytes (m : Module) : List UInt8 := header ++ m.sections.flatMap Section.bytes

/-- Where an item of a section starts in the module's bytes. -/
def itemOffset (m : Module) (id : UInt8) (index : Nat) : Nat :=
  let before := m.sections.takeWhile (·.id != id)
  let start := header.length + (before.flatMap (·.bytes)).length
  match m.sections.find? (·.id == id) with
  | some part => start + part.itemStart index
  | none => start

end Module

end TypedWasm
