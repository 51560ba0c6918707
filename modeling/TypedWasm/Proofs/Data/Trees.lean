import TypedWasm.Machine.Inspect

/-!
# Nested data

Literals, lists and tuples, nested to any depth. The type of a tree is an index, so every list has
elements of one type and every annotation is right. A leaf may be printed on the way.
-/

namespace TypedWasm

open List

variable {types : List Ty}

mutual

/-- A tree of literals, lists and tuples. -/
inductive Data : Ty → Type where
  | leaf (value : Literal) (printed : Bool) : Data value.ty
  | list {element : Ty} {count : Nat} (items : Items (List.replicate count element)) :
      Data (.list element)
  | tuple {types : List Ty} (items : Items types) : Data (.tuple types)

/-- Trees of given types. -/
inductive Items : List Ty → Type where
  | nil : Items []
  | cons {ty : Ty} {types : List Ty} (first : Data ty) (rest : Items types) : Items (ty :: types)

end

mutual

def Data.expr : {ty : Ty} → Data ty → Expr
  | _, .leaf value printed => if printed then .printOf (.ofLiteral value) else .ofLiteral value
  | .list element, .list items => .listOf element items.exprs
  | _, .tuple items => .tupleOf items.exprs

def Items.exprs : {types : List Ty} → Items types → List Expr
  | _, .nil => []
  | _, .cons first rest => first.expr :: rest.exprs

end

/-- What printing a literal writes. -/
def Literal.line : Literal → String
  | .num value => toString value
  | .bool value => if value then "True" else "False"
  | .none => "None"
  | .string text => text

mutual

/-- The lines that the printed leaves of a tree write, from left to right. -/
def Data.lines : {ty : Ty} → Data ty → List String
  | _, .leaf value printed => if printed then [value.line] else []
  | _, .list items => items.lines
  | _, .tuple items => items.lines

def Items.lines : {types : List Ty} → Items types → List String
  | _, .nil => []
  | _, .cons first rest => first.lines ++ rest.lines

end

/-- The bytes of a literal's block. A plain word has none. -/
def Literal.bytes (config : Config) : Literal → Nat
  | .num value => if config.bigNumbers then 4 * (Lowering.bigintWords value).length else 0
  | .string text => 4 * (1 + text.toList.length)
  | .bool _ | .none => 0

mutual

/-- The bytes of all blocks of a tree. A list has a header of three words and room to grow. -/
def Data.bytes (config : Config) : {ty : Ty} → Data ty → Nat
  | _, .leaf value _ => value.bytes config
  | _, .list items => 4 * (3 + (items.exprs.length + config.listGrowthSlack.toNat)) +
    items.bytes config
  | _, .tuple items => 4 * items.exprs.length + items.bytes config

def Items.bytes (config : Config) : {types : List Ty} → Items types → Nat
  | _, .nil => 0
  | _, .cons first rest => first.bytes config + rest.bytes config

end

mutual

theorem Data.ty_expr {ty : Ty} (d : Data ty) : d.expr.ty = ty := by
  cases d with
  | leaf value printed => cases printed <;> rfl
  | list items => rfl
  | tuple items =>
    show Ty.tuple (items.exprs.map Expr.ty) = _
    rw [items.map_ty_exprs]

theorem Items.map_ty_exprs {types : List Ty} (items : Items types) :
    items.exprs.map Expr.ty = types := by
  cases items with
  | nil => rfl
  | cons first rest => rw [Items.exprs, map_cons, first.ty_expr, rest.map_ty_exprs]

end

theorem Items.length_exprs (items : Items types) : items.exprs.length = types.length := by
  have hlength := congrArg List.length items.map_ty_exprs
  rwa [length_map] at hlength

/-- The value that is a literal again. Numbers are integers, or words with the same integer. -/
def Literal.Reads (big : Bool) : Literal → Value → Prop
  | .num value, .integer found => big = true ∧ found = value
  | .num value, .word word => big = false ∧ word.toInt = value
  | .bool value, .word word => word = Word.ofBool value
  | .none, .word word => word = 0
  | .string text, .text found => found = text
  | _, _ => False

mutual

/-- The value that is a tree again. -/
def Data.Reads (big : Bool) : {ty : Ty} → Data ty → Value → Prop
  | _, .leaf value _, found => value.Reads big found
  | _, .list items, .sequence values => items.Reads big values
  | _, .tuple items, .sequence values => items.Reads big values
  | _, _, _ => False

/-- The values that are a row again. -/
def Items.Reads (big : Bool) : {types : List Ty} → Items types → List Value → Prop
  | _, .nil, [] => True
  | _, .cons first rest, value :: values => first.Reads big value ∧ rest.Reads big values
  | _, _, _ => False

end

def Data.Shown (big : Bool) {ty : Ty} (d : Data ty) (m : Machine) (word : Word) : Prop :=
  ∃ value, m.decode big ty word = .ok value ∧ d.Reads big value

def Items.Shown (big : Bool) {types : List Ty} (items : Items types) (m : Machine)
    (words : List Word) : Prop :=
  ∃ values, m.decodeAll big types words = .ok values ∧ items.Reads big values

section Decoding

variable {big : Bool} {m : Machine}

theorem Items.shown_nil : Items.nil.Shown big m [] := ⟨[], rfl, trivial⟩

theorem Items.shown_cons {ty : Ty} {first : Data ty} {rest : Items types} {word : Word}
    {words : List Word} (hfirst : first.Shown big m word) (hrest : rest.Shown big m words) :
    (Items.cons first rest).Shown big m (word :: words) := by
  obtain ⟨value, hdecode, hvalue⟩ := hfirst
  obtain ⟨values, hdecodes, hvalues⟩ := hrest
  refine ⟨value :: values, ?_, hvalue, hvalues⟩
  rw [Machine.decodeAll, hdecode, hdecodes]
  rfl

theorem Machine.decodeAll_replicate (m : Machine) (big : Bool) (element : Ty) (words : List Word) :
    m.decodeAll big (List.replicate words.length element) words =
      words.mapM (m.decode big element) := by
  induction words with
  | nil => rfl
  | cons word rest ih => rw [length_cons, replicate_succ, Machine.decodeAll, ih, mapM_cons]

end Decoding

end TypedWasm
