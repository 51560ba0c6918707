import TypedWasm.Code.Instr
import TypedWasm.Diagnostic.Basic
import TypedWasm.Diagnostic.Violation
import TypedWasm.Source.Program
import TypedWasm.Text.Quoted

/-!
# Faults

Every reason the generator refuses a program, a configuration or a module, as a value. The wording
and the context of each stand in one place, `Fault.diagnostic`.
-/

namespace TypedWasm

open Diagnostic

inductive Fault where
  -- Names
  | unresolvedGlobal (name : String)
  | unresolvedClass (name : String)
  | unresolvedField (cls field : String)
  | unresolvedFunction (name : String)
  -- Expressions
  | listOperator (op : BinaryOp) (found : Ty)
  | stringOperator (op : BinaryOp) (found : Ty)
  | unprintable (found : Ty)
  | noLength (found : Ty)
  | notInstance (found : Ty)
  | notIndexable (found : Ty)
  | tupleIndex (index : Int) (found : Ty)
  | constructorArguments (cls : String) (count : Nat)
  | literalTooLarge (value : Int)
  | absUnavailable
  | builtinUnavailable (name : Builtin2)
  | numberKeys
  -- Assignment
  | targetCount (count : Nat)
  | loneStar
  | manyStars (count : Nat)
  | starredSource (source : String)
  | fieldCount (cls : String) (fields targets : Nat)
  | tupleArity (arity targets : Nat)
  | notDestructurable (found : Ty)
  | dictAssignment
  | notAssignable (found : Ty)
  -- Units
  | classChanged (name : String)
  | slotTooHigh (slot heapStart : UInt32)
  | reservedMain
  -- Modules
  | duplicateFunction (name : String)
  | unknownCallee (callee : Callee)
  | undeclaredLocal (name function : String)
  | invalidModule (offset : Nat) (violation : Violation)
  -- Configuration and saved environments
  | unreadableConfig
  | badHeapStart (found : UInt32)
  | tooFewPages (found heapStart : UInt32)
  | limitBelowMinimum (found minimum : UInt32)
  | configFile (path reason : String)
  | unreadableEnvironment
  deriving Repr, DecidableEq, Inhabited

def BinaryOp.label : BinaryOp → String
  | .plus => "Plus"
  | .minus => "Minus"
  | .mul => "Mul"
  | .idiv => "IDiv"
  | .mod => "Mod"
  | .eq => "Eq"
  | .ne => "Ne"
  | .lte => "Lte"
  | .gte => "Gte"
  | .lt => "Lt"
  | .gt => "Gt"
  | .is => "Is"
  | .and => "And"
  | .or => "Or"

def Builtin2.label : Builtin2 → String
  | .pow => "Pow"
  | .min => "Min"
  | .max => "Max"

def Callee.label : Callee → String
  | .user name => "User(" ++ Quoted.text name ++ ")"
  | .helper h => "Helper(" ++ h.label ++ ")"
  | .intrinsic i => "Intrinsic(" ++ i.label ++ ")"

namespace Fault

/-- A fault of the passes before the generator, about a type it found. -/
def wrongType (message : String) (found : Ty) : Diagnostic :=
  (make .compiler message).withMetadata .foundType found.text

def diagnostic : Fault → Diagnostic
  | .unresolvedGlobal name => .make .unresolvedName name
  | .unresolvedClass name => (make .unresolvedName name).withMetadata .className name
  | .unresolvedField cls field =>
    (make .unresolvedName field).withMetadata .className cls
  | .unresolvedFunction name =>
    (make .unresolvedName name).withMetadata .stage "Code Generation"
  | .listOperator op found =>
    wrongType ("Operator " ++ op.label ++ " is not defined on lists") found
  | .stringOperator op found =>
    wrongType ("Operator " ++ op.label ++ " is not defined on strings") found
  | .unprintable found =>
    (wrongType ("print does not support values of type " ++ found.text) found).withMetadata
      .stage "Code Generation"
  | .noLength found => wrongType ("len does not support values of type " ++ found.text) found
  | .notInstance found =>
    (wrongType ("Expected an object of class type, found " ++ found.text) found).withMetadata
      .expectedType "class"
  | .notIndexable found => wrongType ("Cannot index into a value of type " ++ found.text) found
  | .tupleIndex index found =>
    wrongType ("Tuple index " ++ toString index ++ " is out of range for " ++ found.text) found
  | .constructorArguments cls count =>
    (make .compiler ("Class '" ++ cls ++ "' has no " ++ initMethod ++
      " but was constructed with " ++ toString count ++ " arguments")).withMetadata .className cls
  | .literalTooLarge value =>
    (make .unsupportedFeature ("Integer literal " ++ toString value ++
      " does not fit in a 32 bit word")).withMetadata
      .suggestion "Set number_repr = \"bigint\" in the codegen config"
  | .absUnavailable =>
    .make .unsupportedFeature "abs is not available with big integer numbers"
  | .builtinUnavailable name =>
    .make .unsupportedFeature (name.label ++ " is not available with big integer numbers")
  | .numberKeys =>
    .make .unsupportedFeature
      "Dictionaries with number keys are not available with big integer numbers"
  | .targetCount count =>
    .make .compiler ("Plain assignment expects exactly one target, found " ++ toString count)
  | .loneStar => .make .compiler "A lone assignment target cannot be starred"
  | .manyStars count =>
    .make .compiler ("At most one starred target is allowed, found " ++ toString count)
  | .starredSource source =>
    .make .unsupportedFeature ("Starred targets are not supported for " ++ source)
  | .fieldCount cls fields targets =>
    (make .compiler ("Class '" ++ cls ++ "' has " ++ toString fields ++
      " fields but " ++ toString targets ++ " targets were given")).withMetadata .className cls
  | .tupleArity arity targets =>
    .make .compiler ("Tuple of " ++ toString arity ++ " elements cannot be unpacked into " ++
      toString targets ++ " targets")
  | .notDestructurable found =>
    .make .layout ("Cannot destructure a value of type " ++ found.text)
  | .dictAssignment => .make .unsupportedFeature "Assigning into a dictionary is not supported"
  | .notAssignable found =>
    (wrongType ("Cannot assign through an index into a value of type " ++ found.text)
      found).withMetadata .expectedType "list"
  | .classChanged name =>
    ((make .layout ("class '" ++ name ++
      "' redeclared with different fields")).withMetadata .className name).withMetadata
      .stage "Layout Planning"
  | .slotTooHigh slot heapStart =>
    ((make .layout ("Global slot " ++ toString slot.toNat ++
      " does not fit below the heap start at " ++ toString heapStart.toNat)).withMetadata
      .stage "Layout Planning").withMetadata
      .suggestion "Raise heap_start in the codegen config"
  | .reservedMain =>
    (make .unsupportedFeature ("A function cannot be named '" ++ mainName ++
      "', the top level body uses that name")).withMetadata .variableName mainName
  | .duplicateFunction name =>
    (make .wasmGeneration ("Function '" ++ name ++ "' is defined twice")).withMetadata
      .variableName name
  | .unknownCallee callee =>
    .make .wasmGeneration ("Call to " ++ callee.label ++ " has no function in the module")
  | .undeclaredLocal name function =>
    .make .wasmGeneration ("Local '" ++ name ++ "' is not declared in function '" ++ function ++
      "'")
  | .invalidModule offset violation =>
    ((make .wasmGeneration ("Generated module failed validation at byte " ++
      toString offset ++ ": " ++ violation.message)).withMetadata
      .stage "WASM Validation").withMetadata .suggestion violation.suggestion
  | .unreadableConfig =>
    (make .config "Could not parse codegen config").withMetadata .stage "Config"
  | .badHeapStart found =>
    (make .config
      ("heap_start must be a word aligned address past the heap head, got " ++
        toString found.toNat)).withMetadata .suggestion "Use a multiple of 4, e.g. 65536"
  | .tooFewPages found heapStart =>
    .make .config ("min_memory_pages (" ++ toString found.toNat ++
      ") does not cover heap_start (" ++ toString heapStart.toNat ++ ")")
  | .limitBelowMinimum found minimum =>
    .make .config ("max_memory_pages (" ++ toString found.toNat ++
      ") is smaller than min_memory_pages (" ++ toString minimum.toNat ++ ")")
  | .configFile path reason =>
    .make .config ("Could not read codegen config '" ++ path ++ "': " ++ reason)
  | .unreadableEnvironment => .make .config "Could not read saved environment"

end Fault

inductive Failure where
  | fault (fault : Fault)
  | overflow (overflow : Overflow)
  deriving Repr, DecidableEq, Inhabited

end TypedWasm
