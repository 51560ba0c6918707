import TypedWasm.Source.Literal

/-!
# Typed programs

The programs the generator accepts. Every expression carries its type, and the generator only reads
it: a wrong annotation gives wrong offsets, not an error.
-/

namespace TypedWasm

inductive BinaryOp where
  | plus | minus | mul | idiv | mod
  | eq | ne | lte | gte | lt | gt
  | is | and | or
  deriving Repr, DecidableEq, Inhabited

inductive UnaryOp where
  | neg | not
  deriving Repr, DecidableEq, Inhabited

inductive Builtin1 where
  | print | abs | len
  deriving Repr, DecidableEq, Inhabited

inductive Builtin2 where
  | pow | min | max
  deriving Repr, DecidableEq, Inhabited

/-- Expressions. The first field of every constructor is the expression's type. -/
inductive Expr where
  | literal (ty : Ty) (value : Literal)
  | id (ty : Ty) (name : String)
  | binary (ty : Ty) (op : BinaryOp) (left right : Expr)
  | unary (ty : Ty) (op : UnaryOp) (operand : Expr)
  | call (ty : Ty) (name : String) (args : List Expr)
  | builtin1 (ty : Ty) (name : Builtin1) (arg : Expr)
  | builtin2 (ty : Ty) (name : Builtin2) (left right : Expr)
  | construct (ty : Ty) (cls : String) (args : List Expr)
  | methodCall (ty : Ty) (object : Expr) (method : String) (args : List Expr)
  | lookup (ty : Ty) (object : Expr) (field : String)
  | index (ty : Ty) (object key : Expr)
  | list (ty : Ty) (elements : List Expr)
  | tuple (ty : Ty) (elements : List Expr)
  | dict (ty : Ty) (entries : List (Expr × Expr))
  deriving Repr, Inhabited

namespace Expr

def ty : Expr → Ty
  | .literal ty _ | .id ty _ | .binary ty .. | .unary ty .. | .call ty .. | .builtin1 ty ..
  | .builtin2 ty .. | .construct ty .. | .methodCall ty .. | .lookup ty .. | .index ty ..
  | .list ty _ | .tuple ty _ | .dict ty _ => ty

def ofLiteral (value : Literal) : Expr := .literal value.ty value

def listOf (element : Ty) (elements : List Expr) : Expr := .list (.list element) elements

def tupleOf (elements : List Expr) : Expr := .tuple (.tuple (elements.map Expr.ty)) elements

/-- Printing a value yields the value again. -/
def printOf (arg : Expr) : Expr := .builtin1 arg.ty .print arg

def isEmptyList : Expr → Bool
  | .list _ [] => true
  | _ => false

/-- The integer a number literal denotes, if the expression is one. -/
def literalNumber? : Expr → Option Int
  | .literal _ (.num value) => some value
  | _ => none

end Expr

inductive Target where
  | id (name : String)
  | lookup (object : Expr) (field : String)
  | index (object key : Expr)
  deriving Repr, Inhabited

structure Slot where
  target : Target
  starred : Bool := false
  ignore : Bool := false
  deriving Repr, Inhabited

namespace Slot

def ignored : Slot := { target := .id "_", ignore := true }

end Slot

structure Pattern where
  /-- Whether the value is taken apart. Otherwise there is one position for the whole value. -/
  isDestructured : Bool
  valueType : Ty
  slots : List Slot
  deriving Repr, Inhabited

namespace Pattern

def single (target : Target) (valueType : Ty) : Pattern :=
  { isDestructured := false, valueType, slots := [{ target }] }

def multiple (slots : List Slot) (valueType : Ty) : Pattern :=
  { isDestructured := true, valueType, slots }

end Pattern

inductive Stmt where
  | ret (value : Expr)
  | assign (pattern : Pattern) (value : Expr)
  | expr (value : Expr)
  | cond (test : Expr) (thenBody elseBody : List Stmt)
  | loop (test : Expr) (body : List Stmt)
  | pass
  deriving Repr, Inhabited

structure VarInit where
  name : String
  ty : Ty
  value : Literal
  deriving Repr, DecidableEq, Inhabited

structure Parameter where
  name : String
  ty : Ty
  deriving Repr, DecidableEq, Inhabited

structure FunDef where
  name : String
  parameters : List Parameter
  inits : List VarInit := []
  body : List Stmt
  deriving Repr, Inhabited

structure ClassDef where
  name : String
  fields : List VarInit
  methods : List FunDef := []
  deriving Repr, Inhabited

structure Program where
  inits : List VarInit := []
  funs : List FunDef := []
  classes : List ClassDef := []
  stmts : List Stmt := []
  deriving Repr, Inhabited

def mangled (cls method : String) : String := cls ++ "$" ++ method

def initMethod : String := "__init__"

def mainName : String := "main"

end TypedWasm
