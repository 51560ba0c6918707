import TypedWasm.Compile

/-!
# Modules with indices

A module as the binary format sees it: types, imports, functions, memory, exports, code and data,
all by index. Names are resolved here, and resolving is the only part of encoding that can fail.

Functions are numbered imports first, then the unit's functions, main and helpers.
-/

namespace TypedWasm

/-- An instruction whose locals and functions go by index. -/
abbrev Op := InstrOf Nat Nat

/-- A function type. Every parameter and result is one word. -/
structure FuncType where
  params : Nat
  returnsValue : Bool
  deriving Repr, DecidableEq, Inhabited

/-- The least and, if there is one, the greatest number of pages of a memory. -/
structure Limits where
  minimum : UInt32
  maximum : Option UInt32
  deriving Repr, DecidableEq, Inhabited

inductive ImportKind where
  | function (typeIndex : Nat)
  | memory (limits : Limits)
  deriving Repr, DecidableEq, Inhabited

structure Import where
  module : String
  name : String
  kind : ImportKind
  deriving Repr, DecidableEq, Inhabited

inductive ExportKind where
  | function (index : Nat)
  | memory
  deriving Repr, DecidableEq, Inhabited

structure Export where
  name : String
  kind : ExportKind
  deriving Repr, DecidableEq, Inhabited

/-- A function body: the number of its locals and its instructions. -/
structure CodeEntry where
  locals : Nat
  body : List Op
  deriving Repr, Inhabited

structure Module where
  types : List FuncType
  imports : List Import
  functions : List Nat
  memory : Option Limits
  exports : List Export
  codes : List CodeEntry
  /-- The bytes at address zero, when the module sets them. -/
  data : Option (List UInt8)
  deriving Repr, Inhabited

namespace Resolve

mutual

/-- Replaces the names in an instruction, failing at the first that has no index. -/
def instr (localIndex : String → Except Fault Nat) (calleeIndex : Callee → Except Fault Nat) :
    Instr → Except Fault Op
  | .const value => .ok (.const value)
  | .localGet name => do return .localGet (← localIndex name)
  | .localSet name => do return .localSet (← localIndex name)
  | .localTee name => do return .localTee (← localIndex name)
  | .load offset => .ok (.load offset)
  | .store offset => .ok (.store offset)
  | .numeric op => .ok (.numeric op)
  | .eqz => .ok .eqz
  | .memorySize => .ok .memorySize
  | .memoryGrow => .ok .memoryGrow
  | .call callee => do return .call (← calleeIndex callee)
  | .drop => .ok .drop
  | .ret => .ok .ret
  | .unreachable => .ok .unreachable
  | .nop => .ok .nop
  | .block inner => do return .block (← body localIndex calleeIndex inner)
  | .loop inner => do return .loop (← body localIndex calleeIndex inner)
  | .cond yields thenBody elseBody => do
    let thenOps ← body localIndex calleeIndex thenBody
    let elseOps ← body localIndex calleeIndex elseBody
    return .cond yields thenOps elseOps
  | .br depth => .ok (.br depth)
  | .brIf depth => .ok (.brIf depth)

def body (localIndex : String → Except Fault Nat) (calleeIndex : Callee → Except Fault Nat) :
    Code → Except Fault (List Op)
  | [] => .ok []
  | first :: rest => do
    let op ← instr localIndex calleeIndex first
    return op :: (← body localIndex calleeIndex rest)

end

end Resolve

def firstRepeated : (seen : List String) → List String → Option String
  | _, [] => none
  | seen, name :: rest =>
    if seen.contains name then some name else firstRepeated (name :: seen) rest

namespace CompiledUnit

def localIndex (fn : Func) (name : String) : Except Fault Nat :=
  match fn.indexOfLocal? name with
  | some index => .ok index
  | none => .error (.undeclaredLocal name fn.name)

def namedIndex (u : CompiledUnit) (name : String) : Option Nat :=
  (u.allFunctions.findIdx? (·.name == name)).map (u.intrinsics.length + ·)

/-- The index of an imported function. Of an intrinsic listed twice the last import counts. -/
def importIndex (u : CompiledUnit) (intrinsic : Intrinsic) : Option Nat :=
  (u.intrinsics.reverse.findIdx? (· == intrinsic)).map (u.intrinsics.length - 1 - ·)

def index? (u : CompiledUnit) : Callee → Option Nat
  | .user name => u.namedIndex name
  | .helper helper => u.namedIndex helper.name
  | .intrinsic intrinsic => u.importIndex intrinsic

/-- The index of the function a call names. -/
def calleeIndex (u : CompiledUnit) (callee : Callee) : Except Fault Nat :=
  match u.index? callee with
  | some index => .ok index
  | none => .error (.unknownCallee callee)

def codeEntry (u : CompiledUnit) (fn : Func) : Except Fault CodeEntry := do
  return { locals := fn.locals.length
           body := ← Resolve.body (localIndex fn) u.calleeIndex fn.body }

def intrinsicType (intrinsic : Intrinsic) : FuncType :=
  { params := intrinsic.arity, returnsValue := intrinsic.returnsValue }

def functionType (fn : Func) : FuncType := { params := fn.params.length, returnsValue := true }

def types (u : CompiledUnit) : List FuncType :=
  (u.intrinsics.map intrinsicType ++ u.allFunctions.map functionType).eraseDups

def limits (u : CompiledUnit) : Limits :=
  { minimum := u.config.minMemoryPages, maximum := u.config.maxMemoryPages }

/-- The imports of a unit: its intrinsics, and the memory when the host owns it. -/
def imports (u : CompiledUnit) : List Import :=
  u.intrinsics.map (fun intrinsic =>
    { module := u.config.intrinsicsModule, name := intrinsic.importName,
      kind := .function (u.types.idxOf (intrinsicType intrinsic)) }) ++
  if u.config.importMemory then
    [{ module := u.config.memoryImportModule, name := u.config.memoryImportName,
       kind := .memory u.limits }]
  else []

/-- The exports of a unit: its exported functions, and the memory when the module defines it. -/
def exports (u : CompiledUnit) : List Export :=
  (u.allFunctions.zipIdx u.intrinsics.length).filterMap (fun (fn, index) =>
    if fn.exported then some { name := fn.name, kind := .function index } else none) ++
  if u.config.importMemory then [] else [{ name := "memory", kind := .memory }]

def headBytes (u : CompiledUnit) : List UInt8 :=
  let head := Word.ofUInt32 u.config.heapStart
  [head.byte 0, head.byte 1, head.byte 2, head.byte 3]

def moduleWith (u : CompiledUnit) (codes : List CodeEntry) : Module where
  types := u.types
  imports := u.imports
  functions := u.allFunctions.map fun fn => u.types.idxOf (functionType fn)
  memory := if u.config.importMemory then none else some u.limits
  exports := u.exports
  codes := codes
  data := if u.config.importMemory then none else some u.headBytes

/-- The module of a unit. Two functions of one name are refused first, then the first name that has
no index. -/
def toModule (u : CompiledUnit) : Except Fault Module :=
  match firstRepeated [] (u.allFunctions.map (·.name)) with
  | some name => .error (.duplicateFunction name)
  | none => do return u.moduleWith (← u.allFunctions.mapM u.codeEntry)

end CompiledUnit

end TypedWasm
