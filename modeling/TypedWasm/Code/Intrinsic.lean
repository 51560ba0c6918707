/-!
# Host intrinsics

The functions a host provides to the generated code. The set is closed. Every intrinsic takes words
and returns a word, except the error reporters, which return nothing and are always followed by
`unreachable`.
-/

namespace TypedWasm

inductive Intrinsic where
  | printNum | printStr | printBool | printNone | printBignum
  | abs | pow | min | max
  | bignumAdd | bignumSub | bignumMul | bignumDiv | bignumMod
  | bignumEq | bignumNe | bignumLt | bignumLte | bignumGt | bignumGte
  | indexError | keyError | unpackError
  deriving Repr, DecidableEq, Inhabited

namespace Intrinsic

def all : List Intrinsic :=
  [.printNum, .printStr, .printBool, .printNone, .printBignum,
   .abs, .pow, .min, .max,
   .bignumAdd, .bignumSub, .bignumMul, .bignumDiv, .bignumMod,
   .bignumEq, .bignumNe, .bignumLt, .bignumLte, .bignumGt, .bignumGte,
   .indexError, .keyError, .unpackError]

def importName : Intrinsic → String
  | .printNum => "print_num"
  | .printStr => "print_str"
  | .printBool => "print_bool"
  | .printNone => "print_none"
  | .printBignum => "print_bignum"
  | .abs => "abs"
  | .pow => "pow"
  | .min => "min"
  | .max => "max"
  | .bignumAdd => "bignum_add"
  | .bignumSub => "bignum_sub"
  | .bignumMul => "bignum_mul"
  | .bignumDiv => "bignum_div"
  | .bignumMod => "bignum_mod"
  | .bignumEq => "bignum_eq"
  | .bignumNe => "bignum_ne"
  | .bignumLt => "bignum_lt"
  | .bignumLte => "bignum_lte"
  | .bignumGt => "bignum_gt"
  | .bignumGte => "bignum_gte"
  | .indexError => "index_error"
  | .keyError => "key_error"
  | .unpackError => "unpack_error"

def label : Intrinsic → String
  | .printNum => "PrintNum"
  | .printStr => "PrintStr"
  | .printBool => "PrintBool"
  | .printNone => "PrintNone"
  | .printBignum => "PrintBignum"
  | .abs => "Abs"
  | .pow => "Pow"
  | .min => "Min"
  | .max => "Max"
  | .bignumAdd => "BignumAdd"
  | .bignumSub => "BignumSub"
  | .bignumMul => "BignumMul"
  | .bignumDiv => "BignumDiv"
  | .bignumMod => "BignumMod"
  | .bignumEq => "BignumEq"
  | .bignumNe => "BignumNe"
  | .bignumLt => "BignumLt"
  | .bignumLte => "BignumLte"
  | .bignumGt => "BignumGt"
  | .bignumGte => "BignumGte"
  | .indexError => "IndexError"
  | .keyError => "KeyError"
  | .unpackError => "UnpackError"

def arity : Intrinsic → Nat
  | .printNum | .printStr | .printBool | .printNone | .printBignum | .abs | .keyError => 1
  | _ => 2

/-- Whether an intrinsic returns a word. The error reporters do not. -/
def returnsValue : Intrinsic → Bool
  | .indexError | .keyError | .unpackError => false
  | _ => true

def ofImportName? (name : String) : Option Intrinsic := all.find? (·.importName == name)

def inOrder (used : List Intrinsic) : List Intrinsic := all.filter used.contains

end Intrinsic

end TypedWasm
