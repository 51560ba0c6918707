/-!
# Violations of module validity

The reasons an encoded module is not valid WebAssembly, and their wording.
-/

namespace TypedWasm

inductive Violation where
  | limitsReversed
  | memoryTooLarge
  | duplicateExport (name : String)
  | missingWord
  | missingValue
  | valuesRemaining
  | unknownLabel
  deriving Repr, DecidableEq, Inhabited

namespace Violation

def message : Violation → String
  | .limitsReversed => "size minimum must not be greater than maximum"
  | .memoryTooLarge => "memory size must be at most 0x10000 65536-byte pages"
  | .duplicateExport name => "duplicate export name `" ++ name ++ "` already defined"
  | .missingWord => "type mismatch: expected i32 but nothing on stack"
  | .missingValue => "type mismatch: expected a type but nothing on stack"
  | .valuesRemaining => "type mismatch: values remaining on stack at end of block"
  | .unknownLabel => "unknown label: branch depth too large"

def suggestion : Violation → String
  | .missingWord | .missingValue | .valuesRemaining =>
    "A lowered body left the wrong number of words on the stack"
  | _ => "Inspect the module with to_wat to find the offending instruction"

end Violation

end TypedWasm
