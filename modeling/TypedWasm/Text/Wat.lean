import TypedWasm.Compile

/-!
# WebAssembly text

Instruction listings and whole units in the flat WebAssembly text format. Text is made line by line,
one instruction or bracket on a line, and each level of nesting is indented by two blanks.
-/

namespace TypedWasm

namespace Wat

def indent (depth : Nat) : String := String.join (List.replicate depth "  ")

def ident (name : String) : String := "$" ++ name

def intrinsicId (module : String) (intrinsic : Intrinsic) : String :=
  "$" ++ module ++ "." ++ intrinsic.importName

def calleeId (module : String) : Callee → String
  | .user name => ident name
  | .helper helper => ident helper.name
  | .intrinsic intrinsic => intrinsicId module intrinsic

def mnemonic : NumericOp → String
  | .add => "i32.add"
  | .sub => "i32.sub"
  | .mul => "i32.mul"
  | .divS => "i32.div_s"
  | .remS => "i32.rem_s"
  | .eq => "i32.eq"
  | .ne => "i32.ne"
  | .ltS => "i32.lt_s"
  | .gtS => "i32.gt_s"
  | .gtU => "i32.gt_u"
  | .leS => "i32.le_s"
  | .geS => "i32.ge_s"
  | .and => "i32.and"
  | .or => "i32.or"
  | .shrU => "i32.shr_u"

/-- A memory access. An offset of zero is not written. -/
def withOffset (name : String) (offset : UInt32) : String :=
  if offset = 0 then name else name ++ " offset=" ++ toString offset.toNat

mutual

def instrLines (module : String) (depth : Nat) : Instr → List String
  | .const value => [indent depth ++ "i32.const " ++ toString value.toInt]
  | .localGet name => [indent depth ++ "local.get " ++ ident name]
  | .localSet name => [indent depth ++ "local.set " ++ ident name]
  | .localTee name => [indent depth ++ "local.tee " ++ ident name]
  | .load offset => [indent depth ++ withOffset "i32.load" offset]
  | .store offset => [indent depth ++ withOffset "i32.store" offset]
  | .numeric op => [indent depth ++ mnemonic op]
  | .eqz => [indent depth ++ "i32.eqz"]
  | .memorySize => [indent depth ++ "memory.size"]
  | .memoryGrow => [indent depth ++ "memory.grow"]
  | .call callee => [indent depth ++ "call " ++ calleeId module callee]
  | .drop => [indent depth ++ "drop"]
  | .ret => [indent depth ++ "return"]
  | .unreachable => [indent depth ++ "unreachable"]
  | .nop => [indent depth ++ "nop"]
  | .br label => [indent depth ++ "br " ++ toString label.toNat]
  | .brIf label => [indent depth ++ "br_if " ++ toString label.toNat]
  | .block body =>
    [indent depth ++ "block"] ++ bodyLines module (depth + 1) body ++ [indent depth ++ "end"]
  | .loop body =>
    [indent depth ++ "loop"] ++ bodyLines module (depth + 1) body ++ [indent depth ++ "end"]
  | .cond yields thenBody elseBody =>
    [indent depth ++ if yields then "if (result i32)" else "if"] ++
    bodyLines module (depth + 1) thenBody ++
    (if elseBody.isEmpty then []
      else [indent depth ++ "else"] ++ bodyLines module (depth + 1) elseBody) ++
    [indent depth ++ "end"]

def bodyLines (module : String) (depth : Nat) : Code → List String
  | [] => []
  | instr :: rest => instrLines module depth instr ++ bodyLines module depth rest

end

def unlines (lines : List String) : String :=
  lines.foldl (fun text line => (text ++ line).push '\n') ""

def bodyText (module : String) (depth : Nat) (body : Code) : String :=
  unlines (bodyLines module depth body)

def header (fn : Func) : String :=
  "(func " ++ ident fn.name ++
  (if fn.exported then " (export \"" ++ fn.name ++ "\")" else "") ++
  String.join (fn.params.map fun param => " (param " ++ ident param ++ " i32)") ++
  " (result i32)"

def functionLines (module : String) (depth : Nat) (fn : Func) : List String :=
  [indent depth ++ header fn] ++
  fn.locals.map (fun name => indent (depth + 1) ++ "(local " ++ ident name ++ " i32)") ++
  bodyLines module (depth + 1) fn.body ++
  [indent depth ++ ")"]

def functionText (module : String) (depth : Nat) (fn : Func) : String :=
  unlines (functionLines module depth fn)

def importLine (module : String) (intrinsic : Intrinsic) : String :=
  "  (import \"" ++ module ++ "\" \"" ++ intrinsic.importName ++ "\" (func " ++
  intrinsicId module intrinsic ++ " (param" ++
  String.join (List.replicate intrinsic.arity " i32") ++ ")" ++
  (if intrinsic.returnsValue then " (result i32)" else "") ++ "))"

def limits (config : Config) : String :=
  match config.maxMemoryPages with
  | some maximum => toString config.minMemoryPages.toNat ++ " " ++ toString maximum.toNat
  | none => toString config.minMemoryPages.toNat

def memoryLine (config : Config) : String :=
  if config.importMemory then
    "  (import \"" ++ config.memoryImportModule ++ "\" \"" ++ config.memoryImportName ++
    "\" (memory " ++ limits config ++ "))"
  else "  (memory (export \"memory\") " ++ limits config ++ ")"

def dataByte (byte : UInt8) : String :=
  "\\" ++ String.ofList (Nat.toDigits 16 (byte.toNat / 16) ++ Nat.toDigits 16 (byte.toNat % 16))

/-- The line that sets the heap head. The host sets it in a memory of its own. -/
def dataLines (config : Config) : List String :=
  if config.importMemory then []
  else
    let head := Word.ofUInt32 config.heapStart
    ["  (data (i32.const " ++ toString heapHeadAddress.toNat ++ ") \"" ++
      String.join ([0, 1, 2, 3].map fun position => dataByte (head.byte position)) ++ "\")"]

end Wat

namespace CompiledUnit

def wat (u : CompiledUnit) : String :=
  let module := u.config.intrinsicsModule
  Wat.unlines (
    ["(module"] ++ u.intrinsics.map (Wat.importLine module) ++ [Wat.memoryLine u.config] ++
    u.allFunctions.flatMap (Wat.functionLines module 1) ++
    Wat.dataLines u.config ++ [")"])

def mainWat (u : CompiledUnit) : String := Wat.functionText u.config.intrinsicsModule 0 u.main

end CompiledUnit

end TypedWasm
