import TypedWasm.Json.Text
import TypedWasm.Layout.Environment
import TypedWasm.Source.JsonForm

/-!
# Units and environments as text

A unit comes as JSON text, and a session saves its environment as JSON text between units. The names
of a scope are not saved.
-/

namespace TypedWasm

open Json (required? listOf?)

def FieldLayout.toJson (field : FieldLayout) : Json :=
  .obj [("name", .str field.name), ("ty", field.ty.toJson), ("offset", .int field.offset.toNat),
    ("default", field.default.toJson)]

def ClassLayout.toJson (layout : ClassLayout) : Json :=
  .obj [("fields", .arr (layout.fields.map FieldLayout.toJson)),
    ("methods", .arr (layout.methods.map Json.str))]

namespace Environment

def toJson (env : Environment) : Json :=
  .obj [("globals", .obj (env.globals.map fun (name, slot) => (name, .int slot.toNat))),
    ("classes", .obj (env.classes.map fun (name, layout) => (name, layout.toJson))),
    ("offset", .int env.nextSlot.toNat)]

def save (env : Environment) : String := env.toJson.render

end Environment

/-- Reads the text of a unit. Text that nests too deep is refused. -/
def Program.read? (text : String) : Option Program :=
  (Json.parse? text).bind fun json => if json.depth ≤ Json.textDepth then ofJson? json else none

/-- How deep a saved type may nest: five containers stand around a field's type. -/
def savedTypeDepth : Nat := Json.textDepth - 5

/-- Reads a type that does not nest too deep to be saved. Everything in it is looked at, members
that are no field too. -/
def Ty.ofSaved? (json : Json) : Option Ty :=
  if json.depth ≤ savedTypeDepth ∧ json.isSound then Ty.ofJson? json else Option.none

def FieldLayout.ofJson? (json : Json) : Option FieldLayout := do
  let fields ← json.record? ["name", "ty", "offset", "default"]
  return { name := ← required? fields "name" Json.str?
           ty := ← required? fields "ty" Ty.ofSaved?
           offset := ← required? fields "offset" Json.uint32?
           default := ← required? fields "default" Literal.ofJson? }

def ClassLayout.ofJson? (json : Json) : Option ClassLayout := do
  let fields ← json.record? ["fields", "methods"]
  return { fields := ← required? fields "fields" (listOf? FieldLayout.ofJson?)
           methods := ← required? fields "methods" (listOf? Json.str?) }

/-- Reads an object as a map. The last of two members with one key counts. -/
def Json.map? {α : Type} (read : Json → Option α) : Json → Option (List (String × α))
  | .obj members => do
    let entries ← members.mapM fun (key, value) => do return (key, ← read value)
    return entries.foldl (fun kept entry => kept.filter (·.1 != entry.1) ++ [entry]) []
  | _ => none

namespace Environment

def ofJson? (json : Json) : Option Environment := do
  let fields ← json.record? ["globals", "classes", "offset"]
  return { globals := ← required? fields "globals" (Json.map? Json.uint32?)
           classes := ← required? fields "classes" (Json.map? ClassLayout.ofJson?)
           nextSlot := ← required? fields "offset" Json.uint32? }

/-- Reads the text of a saved environment. Members that are no field may be garbled. -/
def restore (text : String) : Except Fault Environment :=
  match (Json.scan? text).bind ofJson? with
  | some env => .ok env
  | none => .error .unreadableEnvironment

end Environment

end TypedWasm
