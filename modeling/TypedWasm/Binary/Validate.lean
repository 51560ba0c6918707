import TypedWasm.Binary.Encode

/-!
# Module validity

Checks a module as a WebAssembly host does before it runs one: the memory's limits, the export names
and then every function body against the stack discipline. A violation is reported with the offset
of the bytes at fault.

Every value is a word, so the checker keeps only how many there are. Code after an unconditional
jump is unreachable, and there the stack gives as many words as are asked for.
-/

namespace TypedWasm

namespace Validate

abbrev Found := Nat × Violation

/-- The words pushed in the innermost block, and whether the code is unreachable. -/
structure Stack where
  words : Nat := 0
  unreachable : Bool := false
  deriving Repr, DecidableEq, Inhabited

namespace Stack

def push (stack : Stack) (count : Nat) : Stack := { stack with words := stack.words + count }

/-- Pops words. In unreachable code there are always enough. -/
def pop (stack : Stack) (count : Nat) : Option Stack :=
  if count ≤ stack.words then some { stack with words := stack.words - count }
  else if stack.unreachable then some { stack with words := 0 }
  else none

def dead : Stack := { words := 0, unreachable := true }

end Stack

def popWords (offset : Nat) (stack : Stack) (count : Nat) : Except Found Stack :=
  match stack.pop count with
  | some stack => .ok stack
  | none => .error (offset, .missingWord)

def popPush (offset : Nat) (stack : Stack) (popped pushed : Nat) : Except Found Stack := do
  return (← popWords offset stack popped).push pushed

def endBlock (offset : Nat) (stack : Stack) (results : Nat) : Except Found Unit := do
  let rest ← popWords offset stack results
  if rest.words = 0 then return else .error (offset, .valuesRemaining)

def resultCount (type : FuncType) : Nat := if type.returnsValue then 1 else 0

def plain (typeOf : Nat → FuncType) (labels : List Nat) (offset : Nat) (stack : Stack) :
    Op → Except Found Stack
  | .const _ => .ok (stack.push 1)
  | .localGet _ => .ok (stack.push 1)
  | .localSet _ => popPush offset stack 1 0
  | .localTee _ => popPush offset stack 1 1
  | .load _ => popPush offset stack 1 1
  | .store _ => popPush offset stack 2 0
  | .numeric _ => popPush offset stack 2 1
  | .eqz => popPush offset stack 1 1
  | .memorySize => .ok (stack.push 1)
  | .memoryGrow => popPush offset stack 1 1
  | .call index =>
    let type := typeOf index
    popPush offset stack type.params (resultCount type)
  | .drop =>
    match stack.pop 1 with
    | some stack => .ok stack
    | none => .error (offset, .missingValue)
  | .ret => do
    let _ ← popWords offset stack 1
    return .dead
  | .unreachable => .ok .dead
  | .br depth =>
    match labels[depth.toNat]? with
    | none => .error (offset, .unknownLabel)
    | some arity => do
      let _ ← popWords offset stack arity
      return .dead
  | .brIf depth => do
    let stack ← popWords offset stack 1
    match labels[depth.toNat]? with
    | none => .error (offset, .unknownLabel)
    | some arity => popPush offset stack arity arity
  | _ => .ok stack

/-- What follows an instruction: the next offset and the stack. -/
abbrev After := Nat × Stack

mutual

/-- What follows an instruction. `labels` holds the words a branch to each enclosing block takes,
innermost first, and `typeOf` the types of functions. -/
def op (typeOf : Nat → FuncType) (labels : List Nat) (offset : Nat) (stack : Stack) :
    Op → Except Found After
  | .block body => do
    let (endOffset, inner) ← ops typeOf (0 :: labels) (offset + 2) {} body
    endBlock endOffset inner 0
    return (endOffset + 1, stack)
  | .loop body => do
    let (endOffset, inner) ← ops typeOf (0 :: labels) (offset + 2) {} body
    endBlock endOffset inner 0
    return (endOffset + 1, stack)
  | .cond yields thenBody elseBody => do
    let results := if yields then 1 else 0
    let stack ← popWords offset stack 1
    let (thenEnd, inner) ← ops typeOf (results :: labels) (offset + 2) {} thenBody
    endBlock thenEnd inner results
    if elseBody.isEmpty then
      endBlock thenEnd {} results
      return (thenEnd + 1, stack.push results)
    else
      let (elseEnd, inner) ← ops typeOf (results :: labels) (thenEnd + 1) {} elseBody
      endBlock elseEnd inner results
      return (elseEnd + 1, stack.push results)
  | other => do
    return (offset + (Encode.op other).length, ← plain typeOf labels offset stack other)

def ops (typeOf : Nat → FuncType) (labels : List Nat) (offset : Nat) (stack : Stack) :
    List Op → Except Found After
  | [] => .ok (offset, stack)
  | first :: rest => do
    let (offset, stack) ← op typeOf labels offset stack first
    ops typeOf labels offset stack rest

end

/-- A function body, whose first instruction is at `offset`. It ends with one word. -/
def body (typeOf : Nat → FuncType) (offset : Nat) (code : List Op) : Except Found Unit := do
  let (endOffset, stack) ← ops typeOf [1] offset {} code
  endBlock endOffset stack 1

def maxPages : Nat := 65536

def limits (offset : Nat) (limits : Limits) : Except Found Unit := do
  match limits.maximum with
  | some maximum => if maximum < limits.minimum then .error (offset, .limitsReversed)
  | none => pure ()
  if maxPages < limits.minimum.toNat ∨ maxPages < (limits.maximum.getD 0).toNat then
    .error (offset, .memoryTooLarge)

def repeatedExport : (seen : List String) → (index : Nat) → List Export → Option (Nat × String)
  | _, _, [] => none
  | seen, index, entry :: rest =>
    if seen.contains entry.name then some (index, entry.name)
    else repeatedExport (entry.name :: seen) (index + 1) rest

end Validate

namespace Module

/-- The types of the module's functions in the order of function indices, imports first. -/
def functionTypes (m : Module) : List FuncType :=
  let typeAt (index : Nat) : FuncType := m.types.getD index default
  m.imports.filterMap (fun entry =>
    match entry.kind with
    | .function typeIndex => some (typeAt typeIndex)
    | .memory _ => none) ++
  m.functions.map typeAt

def validateImports (m : Module) : Except Validate.Found Unit :=
  (m.imports.zipIdx).forM fun (entry, index) =>
    match entry.kind with
    | .memory bounds => Validate.limits (m.itemOffset 2 index) bounds
    | .function _ => .ok ()

def validateMemory (m : Module) : Except Validate.Found Unit :=
  match m.memory with
  | some bounds => Validate.limits (m.itemOffset 5 0) bounds
  | none => .ok ()

def validateExports (m : Module) : Except Validate.Found Unit :=
  match Validate.repeatedExport [] 0 m.exports with
  | some (index, name) => .error (m.itemOffset 7 index, .duplicateExport name)
  | none => .ok ()

/-- Where the first instruction of a body is, when its entry starts at `start`. -/
def bodyOffset (start : Nat) (code : CodeEntry) : Nat :=
  let locals := (Encode.localGroups code.locals).length
  let size := locals + (Encode.ops code.body).length + 1
  start + (Leb128.unsigned size).length + locals

/-- Checks bodies one after another, the first entry starting at `start`. -/
def validateBodies (typeOf : Nat → FuncType) : (start : Nat) → List CodeEntry →
    Except Validate.Found Unit
  | _, [] => .ok ()
  | start, code :: rest => do
    Validate.body typeOf (bodyOffset start code) code.body
    validateBodies typeOf (start + (Encode.codeEntry code).length) rest

def validate (m : Module) : Except Validate.Found Unit := do
  m.validateImports
  m.validateMemory
  m.validateExports
  let types := m.functionTypes.toArray
  validateBodies (fun index => types.getD index default) (m.itemOffset 10 0) m.codes

end Module

/-- The bytes of a unit, validated unless the configuration says otherwise. -/
def CompiledUnit.encode (u : CompiledUnit) : Except Fault (List UInt8) := do
  let m ← u.toModule
  if u.config.validateOutput then
    match m.validate with
    | .ok () => return m.bytes
    | .error (offset, violation) => .error (.invalidModule offset violation)
  else return m.bytes

end TypedWasm
