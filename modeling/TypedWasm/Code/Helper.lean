import TypedWasm.Code.Intrinsic

/-!
# Runtime helpers

Operations on heap objects whose size is known only at run time. Each is one function of the module
that calls it, emitted once and only when something calls it. Helper names start with `$`, which no
source name does.
-/

namespace TypedWasm

inductive Helper where
  | listCopy | listConcat | listSlice | listElementAddress
  | strIndex | strEq | strConcat
  | dictGet
  | bignumFromI32 | bignumToI32
  deriving Repr, DecidableEq, Inhabited

namespace Helper

def all : List Helper :=
  [.listCopy, .listConcat, .listSlice, .listElementAddress, .strIndex, .strEq, .strConcat,
   .dictGet, .bignumFromI32, .bignumToI32]

def name : Helper → String
  | .listCopy => "$list_copy"
  | .listConcat => "$list_concat"
  | .listSlice => "$list_slice"
  | .listElementAddress => "$list_element_address"
  | .strIndex => "$str_index"
  | .strEq => "$str_eq"
  | .strConcat => "$str_concat"
  | .dictGet => "$dict_get"
  | .bignumFromI32 => "$bignum_from_i32"
  | .bignumToI32 => "$bignum_to_i32"

def label : Helper → String
  | .listCopy => "ListCopy"
  | .listConcat => "ListConcat"
  | .listSlice => "ListSlice"
  | .listElementAddress => "ListElementAddress"
  | .strIndex => "StrIndex"
  | .strEq => "StrEq"
  | .strConcat => "StrConcat"
  | .dictGet => "DictGet"
  | .bignumFromI32 => "BignumFromI32"
  | .bignumToI32 => "BignumToI32"

def ofName? (name : String) : Option Helper := all.find? (·.name == name)

def helperDependencies : Helper → List Helper
  | .dictGet => [.strEq]
  | _ => []

def intrinsicDependencies : Helper → List Intrinsic
  | .listElementAddress | .strIndex => [.indexError]
  | .dictGet => [.keyError]
  | _ => []

def inOrder (used : List Helper) : List Helper := all.filter used.contains

/-- The given helpers and those they call, in order. A helper that another one calls calls none
itself, so one step reaches all. -/
def closure (used : List Helper) : List Helper := inOrder (used ++ used.flatMap helperDependencies)

end Helper

end TypedWasm
