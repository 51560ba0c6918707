import TypedWasm.Source.Ty

/-!
# Literals

Constants of the source language. Integers are unbounded here; whether one fits in a machine word is
decided when it is lowered.
-/

namespace TypedWasm

inductive Literal where
  | num (value : Int)
  | bool (value : Bool)
  | none
  | string (value : String)
  deriving Repr, DecidableEq, Inhabited

namespace Literal

def ty : Literal → Ty
  | .num _ => .number
  | .bool _ => .bool
  | .none => .none
  | .string _ => .string

end Literal

end TypedWasm
