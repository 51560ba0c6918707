import TypedWasm.Word
import TypedWasm.Code.Helper

/-!
# Instructions

The part of WebAssembly that works on 32 bit words. The generator names locals and functions; the
names become indices when a module is encoded.
-/

namespace TypedWasm

/-- Instructions that take two words and leave one. -/
inductive NumericOp where
  | add | sub | mul | divS | remS
  | eq | ne | ltS | gtS | gtU | leS | geS
  | and | or | shrU
  deriving Repr, DecidableEq, Inhabited

inductive Callee where
  /-- A source function, or a method by its mangled name. -/
  | user (name : String)
  | helper (helper : Helper)
  | intrinsic (intrinsic : Intrinsic)
  deriving Repr, DecidableEq, Inhabited

/-- An instruction, over what names a local (`ι`) and what names a function (`φ`). -/
inductive InstrOf (ι φ : Type) where
  | const (value : Word)
  | localGet (name : ι)
  | localSet (name : ι)
  | localTee (name : ι)
  /-- The offset is added to the address on the stack. -/
  | load (offset : UInt32)
  | store (offset : UInt32)
  | numeric (op : NumericOp)
  | eqz
  | memorySize
  | memoryGrow
  | call (callee : φ)
  | drop
  | ret
  | unreachable
  | nop
  | block (body : List (InstrOf ι φ))
  | loop (body : List (InstrOf ι φ))
  /-- When `yields` holds, both branches leave one word. -/
  | cond (yields : Bool) (thenBody elseBody : List (InstrOf ι φ))
  | br (depth : UInt32)
  | brIf (depth : UInt32)
  deriving Repr, Inhabited

/-- An instruction as the generator writes it: locals and functions go by name. -/
abbrev Instr := InstrOf String Callee

abbrev Code := List Instr

namespace Instr

def callUser (name : String) : Instr := .call (.user name)

def callHelper (helper : Helper) : Instr := .call (.helper helper)

def callIntrinsic (intrinsic : Intrinsic) : Instr := .call (.intrinsic intrinsic)

def constU (value : UInt32) : Instr := .const (Word.ofUInt32 value)

def when (body : Code) : Instr := .cond false body []

/-- A conditional whose taken branch leaves one word. -/
def choose (thenBody elseBody : Code) : Instr := .cond true thenBody elseBody

def add : Instr := .numeric .add

def sub : Instr := .numeric .sub

def mul : Instr := .numeric .mul

end Instr

/-- The local every function stores the results of expression statements into. -/
def scratchLocal : String := "$scratch"

/-- A function. Parameters come before locals; every function returns one word. -/
structure Func where
  name : String
  params : List String := []
  locals : List String := []
  body : Code := []
  exported : Bool := false
  deriving Repr, Inhabited

namespace Func

/-- The index of a local, parameters first. The first of two equal names counts. -/
def indexOfLocal? (fn : Func) (name : String) : Option Nat :=
  (fn.params ++ fn.locals).findIdx? (· == name)

end Func

end TypedWasm
