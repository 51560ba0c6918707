import TypedWasm.Json.Value
import TypedWasm.Source.Limbs
import TypedWasm.Source.Program

/-!
# Programs as JSON

The exchange form of types, literals, expressions, statements and units. Types, statements,
expression kinds and targets are objects with a `tag` beside their fields; an integer is its sign
and its digits in base `2³²`.

## Design notes

Readers go down the tree by a depth budget, since a field is found by its name and not by its place.
A tree's own depth is always enough. A reader `readAt? place` reads a node where it stands: the
fields of a type, expression kind, target or statement are inside a variant.
-/

namespace TypedWasm

open Json

def Json.variant (tag : String) (fields : List (String × Json)) : Json :=
  .obj ((tagKey, .str tag) :: fields)

def Json.ofInteger (n : Int) : Json :=
  .arr [.int n.sign, .arr ((Limbs.ofInt n).map fun limb => .int limb.toNat)]

namespace Ty

mutual

def toJson : Ty → Json
  | .number => .variant "number" []
  | .bool => .variant "bool" []
  | .string => .variant "string" []
  | .none => .variant "none" []
  | .cls name => .variant "class" [("name", .str name)]
  | .list element => .variant "list" [("elem", element.toJson)]
  | .tuple elements => .variant "tuple" [("elems", .arr (listToJson elements))]
  | .dict key value => .variant "dict" [("key", key.toJson), ("value", value.toJson)]

def listToJson : List Ty → List Json
  | [] => []
  | ty :: rest => ty.toJson :: listToJson rest

end

end Ty

namespace Literal

def toJson : Literal → Json
  | .num value => .variant "num" [("value", .ofInteger value)]
  | .bool value => .variant "bool" [("value", .bool value)]
  | .none => .variant "none" []
  | .string value => .variant "string" [("value", .str value)]

end Literal

namespace BinaryOp

def name : BinaryOp → String
  | .plus => "plus"
  | .minus => "minus"
  | .mul => "mul"
  | .idiv => "idiv"
  | .mod => "mod"
  | .eq => "eq"
  | .ne => "ne"
  | .lte => "lte"
  | .gte => "gte"
  | .lt => "lt"
  | .gt => "gt"
  | .is => "is"
  | .and => "and"
  | .or => "or"

def all : List BinaryOp :=
  [.plus, .minus, .mul, .idiv, .mod, .eq, .ne, .lte, .gte, .lt, .gt, .is, .and, .or]

def readAt? (place : Json.Place) (json : Json) : Option BinaryOp :=
  (json.choice? place).bind fun text => all.find? (·.name == text)

end BinaryOp

namespace UnaryOp

def name : UnaryOp → String
  | .neg => "neg"
  | .not => "not"

def readAt? (place : Json.Place) (json : Json) : Option UnaryOp :=
  (json.choice? place).bind fun text => [UnaryOp.neg, .not].find? (·.name == text)

end UnaryOp

namespace Builtin1

def name : Builtin1 → String
  | .print => "print"
  | .abs => "abs"
  | .len => "len"

def readAt? (place : Json.Place) (json : Json) : Option Builtin1 :=
  (json.choice? place).bind fun text => [Builtin1.print, .abs, .len].find? (·.name == text)

end Builtin1

namespace Builtin2

def name : Builtin2 → String
  | .pow => "pow"
  | .min => "min"
  | .max => "max"

def readAt? (place : Json.Place) (json : Json) : Option Builtin2 :=
  (json.choice? place).bind fun text => [Builtin2.pow, .min, .max].find? (·.name == text)

end Builtin2

namespace Expr

def typed (ty : Ty) (kind : Json) : Json := .obj [("ty", ty.toJson), ("kind", kind)]

mutual

def toJson : Expr → Json
  | .literal ty value => typed ty (.variant "literal" [("value", value.toJson)])
  | .id ty name => typed ty (.variant "id" [("name", .str name)])
  | .binary ty op left right =>
    typed ty (.variant "bin_op"
      [("op", .str op.name), ("left", left.toJson), ("right", right.toJson)])
  | .unary ty op operand =>
    typed ty (.variant "uni_op" [("op", .str op.name), ("expr", operand.toJson)])
  | .call ty name args =>
    typed ty (.variant "call" [("name", .str name), ("args", .arr (listToJson args))])
  | .builtin1 ty name arg =>
    typed ty (.variant "builtin1" [("name", .str name.name), ("arg", arg.toJson)])
  | .builtin2 ty name left right =>
    typed ty (.variant "builtin2"
      [("name", .str name.name), ("left", left.toJson), ("right", right.toJson)])
  | .construct ty cls args =>
    typed ty (.variant "construct" [("class", .str cls), ("args", .arr (listToJson args))])
  | .methodCall ty object method args =>
    typed ty (.variant "method_call"
      [("obj", object.toJson), ("method", .str method), ("args", .arr (listToJson args))])
  | .lookup ty object field =>
    typed ty (.variant "lookup" [("obj", object.toJson), ("field", .str field)])
  | .index ty object key =>
    typed ty (.variant "bracket_lookup" [("obj", object.toJson), ("key", key.toJson)])
  | .list ty elements =>
    typed ty (.variant "list_expr" [("contents", .arr (listToJson elements))])
  | .tuple ty elements =>
    typed ty (.variant "tuple_expr" [("contents", .arr (listToJson elements))])
  | .dict ty entries => typed ty (.variant "dict" [("entries", .arr (entriesToJson entries))])

def listToJson : List Expr → List Json
  | [] => []
  | expr :: rest => expr.toJson :: listToJson rest

def entriesToJson : List (Expr × Expr) → List Json
  | [] => []
  | (key, value) :: rest => .arr [key.toJson, value.toJson] :: entriesToJson rest

end

end Expr

namespace Target

def toJson : Target → Json
  | .id name => .variant "id" [("name", .str name)]
  | .lookup object field => .variant "lookup" [("obj", object.toJson), ("field", .str field)]
  | .index object key => .variant "bracket_lookup" [("obj", object.toJson), ("key", key.toJson)]

end Target

namespace Slot

def toJson (slot : Slot) : Json :=
  .obj [("target", slot.target.toJson), ("starred", .bool slot.starred),
    ("ignore", .bool slot.ignore)]

end Slot

namespace Pattern

def toJson (pattern : Pattern) : Json :=
  .obj [("is_destructured", .bool pattern.isDestructured),
    ("value_type", pattern.valueType.toJson),
    ("targets", .arr (pattern.slots.map Slot.toJson))]

end Pattern

namespace Stmt

mutual

def toJson : Stmt → Json
  | .ret value => .variant "return" [("value", value.toJson)]
  | .assign pattern value =>
    .variant "assign" [("destructure", pattern.toJson), ("value", value.toJson)]
  | .expr value => .variant "expr" [("value", value.toJson)]
  | .cond test thenBody elseBody =>
    .variant "if" [("cond", test.toJson), ("thn", .arr (listToJson thenBody)),
      ("els", .arr (listToJson elseBody))]
  | .loop test body => .variant "while" [("cond", test.toJson), ("body", .arr (listToJson body))]
  | .pass => .variant "pass" []

def listToJson : List Stmt → List Json
  | [] => []
  | stmt :: rest => stmt.toJson :: listToJson rest

end

end Stmt

namespace VarInit

def toJson (init : VarInit) : Json :=
  .obj [("name", .str init.name), ("ty", init.ty.toJson), ("value", init.value.toJson)]

end VarInit

namespace Parameter

def toJson (parameter : Parameter) : Json :=
  .obj [("name", .str parameter.name), ("ty", parameter.ty.toJson)]

end Parameter

namespace FunDef

def toJson (fn : FunDef) : Json :=
  .obj [("name", .str fn.name), ("parameters", .arr (fn.parameters.map Parameter.toJson)),
    ("inits", .arr (fn.inits.map VarInit.toJson)), ("body", .arr (Stmt.listToJson fn.body))]

end FunDef

namespace ClassDef

def toJson (cls : ClassDef) : Json :=
  .obj [("name", .str cls.name), ("fields", .arr (cls.fields.map VarInit.toJson)),
    ("methods", .arr (cls.methods.map FunDef.toJson))]

end ClassDef

namespace Program

def toJson (program : Program) : Json :=
  .obj [("inits", .arr (program.inits.map VarInit.toJson)),
    ("funs", .arr (program.funs.map FunDef.toJson)),
    ("classes", .arr (program.classes.map ClassDef.toJson)),
    ("stmts", .arr (Stmt.listToJson program.stmts))]

end Program

open Json (Place required? optional? listOf?)

/-- An integer from its sign and digits. Zero digits at the top are dropped. -/
def Json.integer? : Json → Option Int
  | .arr [.int sign, limbs] =>
    if sign = -1 ∨ sign = 0 ∨ sign = 1 then
      (listOf? uint32? limbs).map (Limbs.toInt sign)
    else none
  | _ => none

namespace Ty

def tags : List String := ["number", "bool", "string", "none", "class", "list", "tuple", "dict"]

def read : (place : Place) → (depth : Nat) → Json → Option Ty
  | _, 0, _ => Option.none
  | place, depth + 1, json => do
    let (tag, rest) ← json.tagged? place tags
    match tag with
    | "number" => rest.fieldless? .number
    | "bool" => rest.fieldless? .bool
    | "string" => rest.fieldless? .string
    | "none" => rest.fieldless? .none
    | "class" =>
      let fields ← rest.record? ["name"]
      return .cls (← required? fields "name" str?)
    | "list" =>
      let fields ← rest.record? ["elem"]
      return .list (← required? fields "elem" (read .inner depth))
    | "tuple" =>
      let fields ← rest.record? ["elems"]
      return .tuple (← required? fields "elems" (listOf? (read .inner depth)))
    | "dict" =>
      let fields ← rest.record? ["key", "value"]
      return .dict (← required? fields "key" (read .inner depth))
        (← required? fields "value" (read .inner depth))
    | _ => Option.none

def readAt? (place : Place) (json : Json) : Option Ty := read place json.depth json

def ofJson? : Json → Option Ty := readAt? .outer

end Ty

namespace Literal

/-- A literal from its tag and the value beside it. Only `none` goes without a value. -/
def ofParts? (tag : String) (value : Option Json) : Option Literal :=
  match tag, value with
  | "num", some value => value.integer?.map .num
  | "bool", some value => value.bool?.map .bool
  | "string", some value => value.str?.map .string
  | "none", Option.none => some .none
  | "none", some .null => some .none
  | _, _ => Option.none

def tags : List String := ["num", "bool", "none", "string"]

/-- Reads a literal where it stands. As an array it has a tag and a value. In an object the tag is
an alternative like an operator. -/
def readAt? (place : Place) : Json → Option Literal
  | .arr [tag, value] => (tag.tag? place tags).bind fun tag => ofParts? tag (some value)
  | .obj members => do
    let fields ← (obj members).record? ["tag", "value"]
    let tag ← required? fields "tag" (choice? place)
    ofParts? tag (fields.lookup "value")
  | _ => Option.none

def ofJson? : Json → Option Literal := readAt? .outer

end Literal

def Json.pair? {α : Type} (read : Json → Option α) : Json → Option (α × α)
  | .arr [first, second] => do return (← read first, ← read second)
  | _ => none

namespace Expr

def tags : List String :=
  ["literal", "id", "bin_op", "uni_op", "call", "builtin1", "builtin2", "construct", "method_call",
    "lookup", "bracket_lookup", "list_expr", "tuple_expr", "dict"]

def read : (place : Place) → (depth : Nat) → Json → Option Expr
  | _, 0, _ => none
  | place, depth + 1, json => do
    let fields ← json.record? ["ty", "kind"]
    let ty ← required? fields "ty" (Ty.readAt? place)
    let (tag, rest) ← required? fields "kind" (tagged? place tags)
    match tag with
    | "literal" =>
      let fields ← rest.record? ["value"]
      return .literal ty (← required? fields "value" (Literal.readAt? .inner))
    | "id" =>
      let fields ← rest.record? ["name"]
      return .id ty (← required? fields "name" str?)
    | "bin_op" =>
      let fields ← rest.record? ["op", "left", "right"]
      return .binary ty (← required? fields "op" (BinaryOp.readAt? .inner))
        (← required? fields "left" (read .inner depth))
        (← required? fields "right" (read .inner depth))
    | "uni_op" =>
      let fields ← rest.record? ["op", "expr"]
      return .unary ty (← required? fields "op" (UnaryOp.readAt? .inner))
        (← required? fields "expr" (read .inner depth))
    | "call" =>
      let fields ← rest.record? ["name", "args"]
      return .call ty (← required? fields "name" str?)
        (← required? fields "args" (listOf? (read .inner depth)))
    | "builtin1" =>
      let fields ← rest.record? ["name", "arg"]
      return .builtin1 ty (← required? fields "name" (Builtin1.readAt? .inner))
        (← required? fields "arg" (read .inner depth))
    | "builtin2" =>
      let fields ← rest.record? ["name", "left", "right"]
      return .builtin2 ty (← required? fields "name" (Builtin2.readAt? .inner))
        (← required? fields "left" (read .inner depth))
        (← required? fields "right" (read .inner depth))
    | "construct" =>
      let fields ← rest.record? ["class", "args"]
      return .construct ty (← required? fields "class" str?)
        (← optional? fields "args" [] (listOf? (read .inner depth)))
    | "method_call" =>
      let fields ← rest.record? ["obj", "method", "args"]
      return .methodCall ty (← required? fields "obj" (read .inner depth))
        (← required? fields "method" str?)
        (← required? fields "args" (listOf? (read .inner depth)))
    | "lookup" =>
      let fields ← rest.record? ["obj", "field"]
      return .lookup ty (← required? fields "obj" (read .inner depth))
        (← required? fields "field" str?)
    | "bracket_lookup" =>
      let fields ← rest.record? ["obj", "key"]
      return .index ty (← required? fields "obj" (read .inner depth))
        (← required? fields "key" (read .inner depth))
    | "list_expr" =>
      let fields ← rest.record? ["contents"]
      return .list ty (← required? fields "contents" (listOf? (read .inner depth)))
    | "tuple_expr" =>
      let fields ← rest.record? ["contents"]
      return .tuple ty (← required? fields "contents" (listOf? (read .inner depth)))
    | "dict" =>
      let fields ← rest.record? ["entries"]
      return .dict ty (← required? fields "entries" (listOf? (pair? (read .inner depth))))
    | _ => none

def readAt? (place : Place) (json : Json) : Option Expr := read place json.depth json

def ofJson? : Json → Option Expr := readAt? .outer

end Expr

namespace Target

def tags : List String := ["id", "lookup", "bracket_lookup"]

def readAt? (place : Place) (json : Json) : Option Target := do
  let (tag, rest) ← json.tagged? place tags
  match tag with
  | "id" =>
    let fields ← rest.record? ["name"]
    return .id (← required? fields "name" str?)
  | "lookup" =>
    let fields ← rest.record? ["obj", "field"]
    return .lookup (← required? fields "obj" (Expr.readAt? .inner))
      (← required? fields "field" str?)
  | "bracket_lookup" =>
    let fields ← rest.record? ["obj", "key"]
    return .index (← required? fields "obj" (Expr.readAt? .inner))
      (← required? fields "key" (Expr.readAt? .inner))
  | _ => none

def ofJson? : Json → Option Target := readAt? .outer

end Target

namespace Slot

def readAt? (place : Place) (json : Json) : Option Slot := do
  let fields ← json.record? ["target", "starred", "ignore"]
  return { target := ← required? fields "target" (Target.readAt? place)
           starred := ← optional? fields "starred" false bool?
           ignore := ← optional? fields "ignore" false bool? }

end Slot

namespace Pattern

def readAt? (place : Place) (json : Json) : Option Pattern := do
  let fields ← json.record? ["is_destructured", "value_type", "targets"]
  return { isDestructured := ← required? fields "is_destructured" bool?
           valueType := ← required? fields "value_type" (Ty.readAt? place)
           slots := ← required? fields "targets" (listOf? (Slot.readAt? place)) }

def ofJson? : Json → Option Pattern := readAt? .outer

end Pattern

namespace Stmt

def tags : List String := ["return", "assign", "expr", "if", "while", "pass"]

def read : (place : Place) → (depth : Nat) → Json → Option Stmt
  | _, 0, _ => none
  | place, depth + 1, json => do
    let (tag, rest) ← json.tagged? place tags
    match tag with
    | "return" =>
      let fields ← rest.record? ["value"]
      return .ret (← required? fields "value" (Expr.readAt? .inner))
    | "assign" =>
      let fields ← rest.record? ["destructure", "value"]
      return .assign (← required? fields "destructure" (Pattern.readAt? .inner))
        (← required? fields "value" (Expr.readAt? .inner))
    | "expr" =>
      let fields ← rest.record? ["value"]
      return .expr (← required? fields "value" (Expr.readAt? .inner))
    | "if" =>
      let fields ← rest.record? ["cond", "thn", "els"]
      return .cond (← required? fields "cond" (Expr.readAt? .inner))
        (← required? fields "thn" (listOf? (read .inner depth)))
        (← required? fields "els" (listOf? (read .inner depth)))
    | "while" =>
      let fields ← rest.record? ["cond", "body"]
      return .loop (← required? fields "cond" (Expr.readAt? .inner))
        (← required? fields "body" (listOf? (read .inner depth)))
    | "pass" => rest.fieldless? .pass
    | _ => none

def ofJson? (json : Json) : Option Stmt := read .outer json.depth json

end Stmt

namespace VarInit

def ofJson? (json : Json) : Option VarInit := do
  let fields ← json.record? ["name", "ty", "value"]
  return { name := ← required? fields "name" str?
           ty := ← required? fields "ty" Ty.ofJson?
           value := ← required? fields "value" Literal.ofJson? }

end VarInit

namespace Parameter

def ofJson? (json : Json) : Option Parameter := do
  let fields ← json.record? ["name", "ty"]
  return { name := ← required? fields "name" str?
           ty := ← required? fields "ty" Ty.ofJson? }

end Parameter

namespace FunDef

def ofJson? (json : Json) : Option FunDef := do
  let fields ← json.record? ["name", "parameters", "inits", "body"]
  return { name := ← required? fields "name" str?
           parameters := ← required? fields "parameters" (listOf? Parameter.ofJson?)
           inits := ← optional? fields "inits" [] (listOf? VarInit.ofJson?)
           body := ← required? fields "body" (listOf? Stmt.ofJson?) }

end FunDef

namespace ClassDef

def ofJson? (json : Json) : Option ClassDef := do
  let fields ← json.record? ["name", "fields", "methods"]
  return { name := ← required? fields "name" str?
           fields := ← required? fields "fields" (listOf? VarInit.ofJson?)
           methods := ← optional? fields "methods" [] (listOf? FunDef.ofJson?) }

end ClassDef

namespace Program

/-- Reads a unit. Every list may be left out. -/
def ofJson? (json : Json) : Option Program := do
  let fields ← json.record? ["inits", "funs", "classes", "stmts"]
  return { inits := ← optional? fields "inits" [] (listOf? VarInit.ofJson?)
           funs := ← optional? fields "funs" [] (listOf? FunDef.ofJson?)
           classes := ← optional? fields "classes" [] (listOf? ClassDef.ofJson?)
           stmts := ← optional? fields "stmts" [] (listOf? Stmt.ofJson?) }

end Program

end TypedWasm
