import TypedWasm.Lowering.Basic
import TypedWasm.Source.Limbs

/-!
# Lowering of literals and expressions

Every expression lowers to instructions that leave exactly one word on the stack: the value itself,
or the address of a heap object.

## Design notes

Each construct is a combinator on the steps that lower its parts, so the recursion over expressions
stands in one place.
-/

namespace TypedWasm.Lowering

open Lower

/-- The words of a big integer block: the signed limb count and the limbs. -/
def bigintWords (value : Int) : List Word :=
  Word.ofInt (Limbs.signedCount value) :: (Limbs.ofInt value).map Word.ofUInt32

/-- The words of a string block: the length and the characters. A character is one word. -/
def stringWords (text : String) : List Word :=
  Word.ofNat text.toList.length :: text.toList.map fun c => Word.ofUInt32 c.val

def storeConstants (temp : String) : (index : Nat) → List Word → Lower Code
  | _, [] => return []
  | index, word :: rest => do
    let offset ← ofChecked (Block.wordOffset (UInt32.ofNat index))
    return storeWord temp offset [.const word] ++ (← storeConstants temp (index + 1) rest)

/-- A block of constants, the first of which counts the others. -/
def constantBlock (sizeOf : UInt32 → Checked UInt32) (words : List Word) : Lower Code := do
  let count := UInt32.ofNat words.tail.length
  let (temp, reserved) ← allocate (← ofChecked (sizeOf count))
  let stored ← storeConstants temp 0 words
  return reserved ++ stored ++ [.localGet temp]

def nativeNumber (value : Int) : Lower Code :=
  if Word.fits value then return [.const (Word.ofInt value)]
  else fail (.literalTooLarge value)

def literal : Literal → Lower Code
  | .num value => do
    if ← bigNumbers then constantBlock Block.bigintSize (bigintWords value) else nativeNumber value
  | .bool value => return [.const (Word.ofBool value)]
  | .none => return [.const 0]
  | .string text => constantBlock Block.stringSize (stringWords text)

/-- The value of a variable. Locals shadow globals. -/
def nameValue (name : String) : Lower Code := do
  let env := (← context).env
  if env.isLocal name then return [.localGet name]
  else
    let address ← ofResult (env.globalAddress name)
    return [.constU address, .load 0]

def requiredClass (ty : Ty) : Lower String :=
  match ty.className? with
  | some name => return name
  | none => fail (.notInstance ty)

def call (name : String) (args : Lower Code) : Lower Code := do
  let args ← args
  return args ++ [← userCall name]

/-- A call of a method, with the receiver as first argument. -/
def methodCall (objectTy : Ty) (method : String) (object args : Lower Code) :
    Lower Code := do
  let cls ← requiredClass objectTy
  let object ← object
  let args ← args
  return object ++ args ++ [← userCall (mangled cls method)]

def fieldLookup (objectTy : Ty) (field : String) (object : Lower Code) :
    Lower Code := do
  let cls ← requiredClass objectTy
  let offset ← ofLookup ((← context).env.fieldOffset cls field)
  let object ← object
  return object ++ [.load (← ofChecked (Block.instanceField offset))]

def nativeOp : BinaryOp → NumericOp
  | .plus => .add
  | .minus => .sub
  | .mul => .mul
  | .idiv => .divS
  | .mod => .remS
  | .eq => .eq
  | .ne => .ne
  | .lte => .leS
  | .gte => .geS
  | .lt => .ltS
  | .gt => .gtS
  | .is => .eq
  | .and => .and
  | .or => .or

/-- The intrinsic of an operator on big integers. Identity and the logical operators have none and
never reach it. -/
def bignumOp : BinaryOp → Option Intrinsic
  | .plus => some .bignumAdd
  | .minus => some .bignumSub
  | .mul => some .bignumMul
  | .idiv => some .bignumDiv
  | .mod => some .bignumMod
  | .eq => some .bignumEq
  | .ne => some .bignumNe
  | .lt => some .bignumLt
  | .lte => some .bignumLte
  | .gt => some .bignumGt
  | .gte => some .bignumGte
  | .is | .and | .or => none

def bothOperands (left right : Lower Code) : Lower Code := do
  let left ← left
  let right ← right
  return left ++ right

/-- Concatenation of lists. The right operand is evaluated first. A list written `[]` has no
effects, so adding it copies the other operand. -/
def listConcat (leftEmpty rightEmpty : Bool) (left right : Lower Code) :
    Lower Code := do
  if rightEmpty || leftEmpty then
    let source ← if rightEmpty then left else right
    return source ++ [← helper .listCopy]
  else
    let rightTemp ← newTemp
    let leftTemp ← newTemp
    let right ← right
    let left ← left
    return right ++ [.localSet rightTemp] ++ left ++ [.localSet leftTemp] ++
      [.localGet leftTemp, .localGet rightTemp, ← helper .listConcat]

def stringOp (op : BinaryOp) (ty : Ty) (left right : Lower Code) : Lower Code := do
  let operands ← bothOperands left right
  match op with
  | .plus => return operands ++ [← helper .strConcat]
  | .eq => return operands ++ [← helper .strEq]
  | .ne => return operands ++ [← helper .strEq, .eqz]
  | _ => fail (.stringOperator op ty)

def wordOp (op : BinaryOp) (ty : Ty) (left right : Lower Code) : Lower Code := do
  let operands ← bothOperands left right
  match if ty = .number ∧ (← bigNumbers) then bignumOp op else none with
  | some found => return operands ++ [← intrinsic found]
  | none => return operands ++ [.numeric (nativeOp op)]

/-- A binary operator. The logical operators run their right operand only when it decides the
result; the others are chosen by the type of the left operand. -/
def binary (op : BinaryOp) (leftTy : Ty) (leftEmpty rightEmpty : Bool)
    (left right : Lower Code) : Lower Code := do
  match op with
  | .and =>
    let left ← left
    let right ← right
    return left ++ [.choose right [.const 0]]
  | .or =>
    let left ← left
    let right ← right
    return left ++ [.choose [.const 1] right]
  | .is => return (← bothOperands left right) ++ [.numeric .eq]
  | _ =>
    match leftTy with
    | .list _ =>
      match op with
      | .plus => listConcat leftEmpty rightEmpty left right
      | _ => fail (.listOperator op leftTy)
    | .string => stringOp op leftTy left right
    | _ => wordOp op leftTy left right

def unary (op : UnaryOp) (operand : Lower Code) : Lower Code := do
  match op with
  | .neg =>
    if ← bigNumbers then
      let zero ← literal (.num 0)
      let operand ← operand
      return zero ++ operand ++ [← intrinsic .bignumSub]
    else
      let operand ← operand
      return [.const 0] ++ operand ++ [.sub]
  | .not => return (← operand) ++ [.eqz]

def printer (ty : Ty) : Lower Intrinsic := do
  match ty with
  | .number => return if ← bigNumbers then .printBignum else .printNum
  | .string => return .printStr
  | .bool => return .printBool
  | .none => return .printNone
  | _ => fail (.unprintable ty)

/-- What turns a value of a type into its length. The length of a tuple is part of its type. -/
def lengthOf (ty : Ty) : Lower Code :=
  match ty with
  | .list _ => return [.load Block.sizeOffset]
  | .dict _ _ => return [.load Block.sizeOffset]
  | .string => return [.load Block.lengthOffset]
  | .tuple elements => return [.drop, .const (Word.ofNat elements.length)]
  | _ => fail (.noLength ty)

def boxed (code : Code) : Lower Code := do
  if ← bigNumbers then return code ++ [← helper .bignumFromI32] else return code

def builtin1 (name : Builtin1) (argTy : Ty) (arg : Lower Code) : Lower Code := do
  match name with
  | .print =>
    let print ← printer argTy
    let arg ← arg
    return arg ++ [← intrinsic print]
  | .abs =>
    if ← bigNumbers then fail .absUnavailable
    else
      let arg ← arg
      return arg ++ [← intrinsic .abs]
  | .len =>
    let arg ← arg
    boxed (arg ++ (← lengthOf argTy))

def builtin2Intrinsic : Builtin2 → Intrinsic
  | .pow => .pow
  | .min => .min
  | .max => .max

def builtin2 (name : Builtin2) (left right : Lower Code) : Lower Code := do
  if ← bigNumbers then fail (.builtinUnavailable name)
  else return (← bothOperands left right) ++ [← intrinsic (builtin2Intrinsic name)]

def storeDefaults (temp : String) : List FieldLayout → Lower Code
  | [] => return []
  | field :: rest => do
    let default ← literal field.default
    let offset ← ofChecked (Block.instanceField field.offset)
    return storeWord temp offset default ++ (← storeDefaults temp rest)

/-- A fresh instance: every field gets its default, then the class's initialiser runs on it. -/
def construct (cls : String) (argCount : Nat) (args : Lower Code) :
    Lower Code := do
  let layout ← ofLookup ((← context).env.classLayout cls)
  let size ← ofChecked (Block.instanceSize (UInt32.ofNat layout.fields.length))
  let (temp, reserved) ← allocate size
  let defaults ← storeDefaults temp layout.fields
  if layout.hasMethod initMethod then
    let args ← args
    let init ← userCall (mangled cls initMethod)
    return reserved ++ defaults ++ [.localGet temp] ++ args ++ [init, .drop] ++ [.localGet temp]
  else if argCount = 0 then
    return reserved ++ defaults ++ [.localGet temp]
  else fail (.constructorArguments cls argCount)

def indexWord (keyTy : Ty) (key : Lower Code) : Lower Code := do
  let key ← key
  if (← bigNumbers) ∧ keyTy = .number then return key ++ [← helper .bignumToI32] else return key

/-- The address of a list element, checked unless the configuration turns checks off. -/
def listElement (keyTy : Ty) (list key : Lower Code) : Lower Code := do
  let list ← list
  let key ← indexWord keyTy key
  if (← context).config.listBoundsCheck then
    return list ++ key ++ [← helper .listElementAddress]
  else
    return list ++ key ++
      [.constU wordSize, .mul, .add, .constU Block.headerSize, .add]

def fits64 (n : Int) : Bool := -9223372036854775808 ≤ n && n ≤ 9223372036854775807

/-- The element of a tuple. A literal index is checked here, and counts from the end when it is
negative. -/
def tupleElement (objectTy : Ty) (arity : Nat) (literalKey : Option Int) (keyTy : Ty)
    (object key : Lower Code) : Lower Code := do
  let object ← object
  match literalKey.filter fits64 with
  | some position =>
    let place := if position < 0 then position + arity else position
    if place < 0 ∨ (arity : Int) ≤ place then fail (.tupleIndex position objectTy)
    else
      let offset ← ofChecked (Block.tupleElement (UInt32.ofNat place.toNat))
      return object ++ [.load offset]
  | none =>
    let key ← indexWord keyTy key
    return object ++ key ++ [.constU wordSize, .mul, .add, .load 0]

def dictLookup (keyTy : Ty) (object key : Lower Code) : Lower Code := do
  if (← bigNumbers) ∧ keyTy = .number then fail .numberKeys
  else
    let object ← object
    let key ← key
    return object ++ key ++ [.const (Word.ofBool keyTy.isString), ← helper .dictGet]

def indexed (objectTy : Ty) (literalKey : Option Int) (keyTy : Ty)
    (object key : Lower Code) : Lower Code := do
  match objectTy with
  | .string =>
    let object ← object
    let key ← indexWord keyTy key
    return object ++ key ++ [← helper .strIndex]
  | .list _ => return (← listElement keyTy object key) ++ [.load 0]
  | .tuple elements => tupleElement objectTy elements.length literalKey keyTy object key
  | .dict dictKeyTy _ => dictLookup dictKeyTy object key
  | _ => fail (.notIndexable objectTy)

def storeHeader (temp : String) (tag : Word) (size bound : UInt32) : Code :=
  storeWord temp Block.tagOffset [.const tag] ++
  storeWord temp Block.sizeOffset [.constU size] ++
  storeWord temp Block.boundOffset [.constU bound]

/-- A fresh list or dictionary. The block is reserved before any part runs, so the parts are
evaluated and stored from left to right. -/
def collection (tag : Word) (count : Nat) (sizeOf : UInt32 → Checked UInt32)
    (parts : String → Lower Code) : Lower Code := do
  let size := UInt32.ofNat count
  let bound ← ofChecked (Offset.add size (← context).config.listGrowthSlack)
  let (temp, reserved) ← allocate (← ofChecked (sizeOf bound))
  let stored ← parts temp
  return reserved ++ storeHeader temp tag size bound ++ stored ++ [.localGet temp]

def tuple (count : Nat) (parts : String → Lower Code) : Lower Code := do
  let (temp, reserved) ← allocate (← ofChecked (Block.tupleSize (UInt32.ofNat count)))
  let stored ← parts temp
  return reserved ++ stored ++ [.localGet temp]

mutual

def expr : Expr → Lower Code
  | .literal _ value => literal value
  | .id _ name => nameValue name
  | .binary _ op left right =>
    binary op left.ty left.isEmptyList right.isEmptyList (expr left) (expr right)
  | .unary _ op operand => unary op (expr operand)
  | .call _ name args => call name (exprs args)
  | .builtin1 _ name arg => builtin1 name arg.ty (expr arg)
  | .builtin2 _ name left right => builtin2 name (expr left) (expr right)
  | .construct _ cls args => construct cls args.length (exprs args)
  | .methodCall _ object method args => methodCall object.ty method (expr object) (exprs args)
  | .lookup _ object field => fieldLookup object.ty field (expr object)
  | .index _ object key => indexed object.ty key.literalNumber? key.ty (expr object) (expr key)
  | .list _ elements =>
    collection Block.listTag elements.length Block.listSize fun temp =>
      storeAll temp Block.listElement 0 elements
  | .tuple _ elements =>
    tuple elements.length fun temp => storeAll temp Block.tupleElement 0 elements
  | .dict _ entries =>
    collection Block.dictTag entries.length Block.dictSize fun temp => storeEntries temp 0 entries

def exprs : List Expr → Lower Code
  | [] => return []
  | first :: rest => do
    let code ← expr first
    return code ++ (← exprs rest)

def storeAll (temp : String) (offsetOf : UInt32 → Checked UInt32) :
    (index : Nat) → List Expr → Lower Code
  | _, [] => return []
  | index, first :: rest => do
    let code ← expr first
    let offset ← ofChecked (offsetOf (UInt32.ofNat index))
    return storeWord temp offset code ++ (← storeAll temp offsetOf (index + 1) rest)

def storeEntries (temp : String) : (index : Nat) → List (Expr × Expr) → Lower Code
  | _, [] => return []
  | index, (key, value) :: rest => do
    let keyCode ← expr key
    let keyOffset ← ofChecked (Block.dictKey (UInt32.ofNat index))
    let valueCode ← expr value
    let valueOffset ← ofChecked (Block.dictValue (UInt32.ofNat index))
    return storeWord temp keyOffset keyCode ++ storeWord temp valueOffset valueCode ++
      (← storeEntries temp (index + 1) rest)

end

def index (key : Expr) : Lower Code := indexWord key.ty (expr key)

def elementAddress (list key : Expr) : Lower Code :=
  listElement key.ty (expr list) (expr key)

end TypedWasm.Lowering
