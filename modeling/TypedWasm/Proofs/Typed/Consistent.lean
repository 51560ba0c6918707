import Mathlib.Algebra.Order.Ring.Nat
import TypedWasm.Proofs.Names

/-!
# Type-consistent units

The generator reads the types that expressions carry and never checks them. A unit is consistent
when the types agree with the declarations and with what operators and displays make. None may stand
wherever an object may.
-/

namespace TypedWasm

namespace Ty

/-- Whether every word is a value of the type. -/
def isPlain : Ty → Bool
  | .number | .bool => true
  | _ => false

/-- Whether a place of a type may hold a value of another type. A plain place takes any word, and
every place takes none. -/
def Takes (target source : Ty) : Prop := target.isPlain = true ∨ source = target ∨ source = .none

instance (target source : Ty) : Decidable (target.Takes source) :=
  inferInstanceAs (Decidable (_ ∨ _))

theorem Takes.refl (ty : Ty) : ty.Takes ty := .inr (.inl rfl)

end Ty

/-- The types of the parameters and of the result of a function. -/
structure Signature where
  params : List Ty
  result : Ty

def Environment.fieldType? (env : Environment) (cls field : String) : Option Ty :=
  ((env.classes.lookup cls).bind (·.field? field)).map (·.ty)

def Environment.fieldTypes? (env : Environment) (cls : String) : Option (List Ty) :=
  (env.classes.lookup cls).map fun layout => layout.fields.map (·.ty)

/-- What the names in a body stand for. -/
structure Typing where
  env : Environment
  globals : String → Option Ty
  /-- The functions and mangled methods. -/
  signatures : String → Option Signature
  /-- The parameters and locals of the body. -/
  locals : List (String × Ty) := []
  /-- Whether an index that is not a literal, into a tuple of items of given types, gives a value of
  a type. Nothing checks that such an index is inside the tuple. -/
  picks : List Ty → Ty → Prop := fun _ ty => ty.isPlain = true

/-- The type of a variable. Locals shadow globals. -/
def Typing.typeOf? (t : Typing) (name : String) : Option Ty :=
  match t.locals.lookup name with
  | some ty => some ty
  | none => t.globals name

/-- Whether an operator on operands of two types gives a value of a type. -/
def BinaryOp.Gives (op : BinaryOp) (left right ty : Ty) : Prop :=
  match op, left with
  | .and, _ => ty.Takes right
  | .or, _ | .is, _ => ty.isPlain = true
  | .plus, .list item => (Ty.list item).Takes right ∧ ty.Takes (.list item)
  | .plus, .string => Ty.string.Takes right ∧ ty.Takes .string
  | _, .string => Ty.string.Takes right ∧ ty.isPlain = true
  | _, _ => ty.isPlain = true

/-- Whether indexing an object of a type gives a value of a type. -/
def Ty.Indexes (picks : List Ty → Ty → Prop) (object : Ty) (literalKey : Option Int) (key ty : Ty) :
    Prop :=
  match object with
  | .string => ty.Takes .string
  | .list item => ty.Takes item
  | .tuple items =>
    match literalKey.filter Lowering.fits64 with
    | some position =>
      let place := if position < 0 then position + items.length else position
      ∀ item, items[place.toNat]? = some item → ty.Takes item
    | .none => picks items ty
  | .dict dictKey value => ty.Takes value ∧ (dictKey = .string → Ty.string.Takes key)
  | _ => True

mutual

/-- The types of an expression agree with the declarations. -/
def Expr.Consistent (t : Typing) : Expr → Prop
  | .literal ty value => ty = value.ty
  | .id ty name => ∃ found, t.typeOf? name = some found ∧ ty.Takes found
  | .binary ty op left right => left.Consistent t ∧ right.Consistent t ∧
    op.Gives left.ty right.ty ty
  | .unary ty _ operand => operand.Consistent t ∧ ty.isPlain = true
  | .call ty name args => Expr.AllConsistent t args ∧ ∃ signature,
    t.signatures name = some signature ∧
      List.Forall₂ Ty.Takes signature.params (args.map Expr.ty) ∧ ty.Takes signature.result
  | .builtin1 ty name arg => arg.Consistent t ∧
    if name = .print then ty.Takes arg.ty else ty.isPlain = true
  | .builtin2 ty _ left right => left.Consistent t ∧ right.Consistent t ∧ ty.isPlain = true
  | .construct ty cls args => Expr.AllConsistent t args ∧ ty.Takes (.cls cls) ∧
    ∀ signature, t.signatures (mangled cls initMethod) = some signature →
      List.Forall₂ Ty.Takes signature.params (.cls cls :: args.map Expr.ty)
  | .methodCall ty object method args => object.Consistent t ∧ Expr.AllConsistent t args ∧
    ∀ cls, object.ty = .cls cls → ∃ signature,
      t.signatures (mangled cls method) = some signature ∧
        List.Forall₂ Ty.Takes signature.params (object.ty :: args.map Expr.ty) ∧
        ty.Takes signature.result
  | .lookup ty object field => object.Consistent t ∧
    ∀ cls, object.ty = .cls cls → ∃ found, t.env.fieldType? cls field = some found ∧ ty.Takes found
  | .index ty object key => object.Consistent t ∧ key.Consistent t ∧
    object.ty.Indexes t.picks key.literalNumber? key.ty ty
  | .list ty elements => Expr.AllConsistent t elements ∧
    ∃ item, ty = .list item ∧ ∀ element ∈ elements, item.Takes element.ty
  | .tuple ty elements => Expr.AllConsistent t elements ∧
    ∃ items, ty = .tuple items ∧ List.Forall₂ Ty.Takes items (elements.map Expr.ty)
  | .dict ty entries => Expr.EntriesConsistent t entries ∧ ∃ key value, ty = .dict key value ∧
    ∀ entry ∈ entries, key.Takes entry.1.ty ∧ value.Takes entry.2.ty

def Expr.AllConsistent (t : Typing) : List Expr → Prop
  | [] => True
  | first :: rest => first.Consistent t ∧ Expr.AllConsistent t rest

def Expr.EntriesConsistent (t : Typing) : List (Expr × Expr) → Prop
  | [] => True
  | (key, value) :: rest => key.Consistent t ∧ value.Consistent t ∧ Expr.EntriesConsistent t rest

end

/-- A target may be given values of a type. -/
def Target.Consistent (t : Typing) (ty : Ty) : Target → Prop
  | .id name => ∃ found, t.typeOf? name = some found ∧ found.Takes ty
  | .lookup object field => object.Consistent t ∧
    ∀ cls, object.ty = .cls cls → ∃ found, t.env.fieldType? cls field = some found ∧ found.Takes ty
  | .index object key => object.Consistent t ∧ key.Consistent t ∧
    ∀ item, object.ty = .list item → item.Takes ty

/-- The type of what a position takes when a value is taken apart. -/
def Typing.part? (t : Typing) (valueType : Ty) (position : Nat) (starred : Bool) : Option Ty :=
  match valueType with
  | .cls cls => (t.env.fieldTypes? cls).bind (·[position]?)
  | .tuple items => items[position]?
  | .list item => some (if starred then .list item else item)
  | _ => none

/-- A pattern may be given values of a type. Its positions can be counted in a word. -/
def Pattern.Consistent (t : Typing) (ty : Ty) (pattern : Pattern) : Prop :=
  if pattern.isDestructured then
    pattern.slots.length < 2 ^ 31 ∧ pattern.valueType.Takes ty ∧ ∀ position slot part,
      pattern.slots[position]? = some slot → slot.ignore = false →
        t.part? pattern.valueType position slot.starred = some part →
      slot.target.Consistent t part
  else ∀ slot ∈ pattern.slots, slot.ignore = false → slot.target.Consistent t ty

mutual

/-- The types in a statement agree with the declarations, and what it returns has the given type. -/
def Stmt.Consistent (t : Typing) (result : Ty) : Stmt → Prop
  | .ret value => value.Consistent t ∧ result.Takes value.ty
  | .assign pattern value => value.Consistent t ∧ pattern.Consistent t value.ty
  | .expr value => value.Consistent t
  | .cond test thenBody elseBody => test.Consistent t ∧ Stmt.AllConsistent t result thenBody ∧
    Stmt.AllConsistent t result elseBody
  | .loop test body => test.Consistent t ∧ Stmt.AllConsistent t result body
  | .pass => True

def Stmt.AllConsistent (t : Typing) (result : Ty) : List Stmt → Prop
  | [] => True
  | first :: rest => first.Consistent t result ∧ Stmt.AllConsistent t result rest

end

/-- A variable or field may hold its initial value. -/
def VarInit.Consistent (init : VarInit) : Prop := init.ty.Takes init.value.ty

instance (init : VarInit) : Decidable init.Consistent := inferInstanceAs (Decidable (Ty.Takes _ _))

/-- The parameters and locals of a function, with their types. -/
def FunDef.declared (fn : FunDef) : List (String × Ty) :=
  fn.parameters.map (fun parameter => (parameter.name, parameter.ty)) ++
    fn.inits.map fun init => (init.name, init.ty)

/-- A function that takes and returns values of the types of its signature. A name that is declared
twice has one type. -/
structure FunDef.Consistent (t : Typing) (signature : Signature) (fn : FunDef) : Prop where
  params : signature.params = fn.parameters.map (·.ty)
  declared : ∀ entry ∈ fn.declared, fn.declared.lookup entry.1 = some entry.2
  names : ∀ entry ∈ fn.declared, Dollarless entry.1
  inits : ∀ init ∈ fn.inits, init.Consistent
  body : Stmt.AllConsistent { t with locals := fn.declared } signature.result fn.body

/-- A unit whose types agree with its declarations, under names as a source gives them. What the top
level returns may have any type. -/
structure Program.Consistent (t : Typing) (program : Program) : Prop where
  inits : ∀ init ∈ program.inits, t.globals init.name = some init.ty ∧ init.Consistent
  fields : ∀ cls ∈ program.classes, ∀ field ∈ cls.fields, field.Consistent
  routines : ∀ routine ∈ program.routines, ∃ signature,
    t.signatures routine.2 = some signature ∧ routine.1.Consistent t signature
  stmts : Stmt.AllConsistent t .number program.stmts
  fun_names : ∀ fn ∈ program.funs, Dollarless fn.name
  class_names : ∀ cls ∈ program.classes, cls.name ≠ "" ∧ Dollarless cls.name

end TypedWasm
