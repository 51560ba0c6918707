import TypedWasm.Config
import TypedWasm.Diagnostic.Fault

/-!
# Environments

Word slots of module level variables and word offsets of class fields. An environment outlives a
unit: a session keeps it between units, and new declarations only ever append.
-/

namespace TypedWasm

structure FieldLayout where
  name : String
  ty : Ty
  offset : UInt32
  default : Literal
  deriving Repr, DecidableEq, Inhabited

structure ClassLayout where
  fields : List FieldLayout := []
  methods : List String := []
  deriving Repr, DecidableEq, Inhabited

namespace ClassLayout

def field? (layout : ClassLayout) (name : String) : Option FieldLayout :=
  layout.fields.find? (·.name == name)

def hasMethod (layout : ClassLayout) (name : String) : Bool := layout.methods.contains name

def declared (field : FieldLayout) : VarInit :=
  { name := field.name, ty := field.ty, value := field.default }

/-- Whether a declaration has the recorded fields: the same names, types and defaults in order. -/
def sameFields (layout : ClassLayout) (cls : ClassDef) : Bool :=
  layout.fields.map declared == cls.fields

def ofFields (fields : List VarInit) : List FieldLayout :=
  fields.mapIdx fun index field =>
    { name := field.name, ty := field.ty, offset := UInt32.ofNat index, default := field.value }

def ofClass (cls : ClassDef) : ClassLayout :=
  { fields := ofFields cls.fields, methods := cls.methods.map (·.name) }

def addMethods (layout : ClassLayout) (names : List String) : ClassLayout :=
  let add (known : List String) (name : String) : List String :=
    if known.contains name then known else known ++ [name]
  { layout with methods := names.foldl add layout.methods }

end ClassLayout

structure Environment where
  globals : List (String × UInt32) := []
  classes : List (String × ClassLayout) := []
  nextSlot : UInt32 := firstGlobalSlot
  locals : List String := []
  deriving Repr, DecidableEq, Inhabited

namespace Environment

def leave (env : Environment) : Environment := { env with locals := [] }

/-- Gives a new global the next slot. A known global keeps its slot. -/
def addGlobal (env : Environment) (name : String) : Checked Environment :=
  match env.globals.lookup name with
  | some _ => .ok env
  | none => do
    let next ← Offset.add env.nextSlot 1
    return { env with globals := env.globals ++ [(name, env.nextSlot)], nextSlot := next }

def addGlobals : Environment → List String → Checked Environment
  | env, [] => .ok env
  | env, name :: rest => do addGlobals (← env.addGlobal name) rest

def setClass (classes : List (String × ClassLayout)) (name : String) (layout : ClassLayout) :
    List (String × ClassLayout) :=
  classes.map fun entry => if entry.1 == name then (name, layout) else entry

/-- Records a class. A class declared again must have the same fields, and may bring new methods. -/
def addClass (env : Environment) (cls : ClassDef) : Except Fault Environment :=
  match env.classes.lookup cls.name with
  | some layout =>
    if layout.sameFields cls then
      .ok { env with
        classes := setClass env.classes cls.name (layout.addMethods (cls.methods.map (·.name))) }
    else .error (.classChanged cls.name)
  | none => .ok { env with classes := env.classes ++ [(cls.name, .ofClass cls)] }

def addClasses : Environment → List ClassDef → Except Fault Environment
  | env, [] => .ok env
  | env, cls :: rest => do addClasses (← env.addClass cls) rest

/-- The environment with a unit's globals and then its classes added. No name is local in it. -/
def extend (env : Environment) (program : Program) : Except Failure Environment := do
  let env ← (env.leave.addGlobals (program.inits.map (·.name))).mapError Failure.overflow
  (env.addClasses program.classes).mapError Failure.fault

def globalSlot (env : Environment) (name : String) : Except Fault UInt32 :=
  match env.globals.lookup name with
  | some slot => .ok slot
  | none => .error (.unresolvedGlobal name)

def globalAddress (env : Environment) (name : String) : Except Failure UInt32 := do
  let slot ← (env.globalSlot name).mapError Failure.fault
  (Offset.mul slot wordSize).mapError Failure.overflow

def highestSlot (env : Environment) : Option UInt32 :=
  if env.nextSlot > firstGlobalSlot then some (env.nextSlot - 1) else none

def classLayout (env : Environment) (cls : String) : Except Fault ClassLayout :=
  match env.classes.lookup cls with
  | some layout => .ok layout
  | none => .error (.unresolvedClass cls)

def fieldOffset (env : Environment) (cls field : String) : Except Fault UInt32 := do
  let layout ← env.classLayout cls
  match layout.field? field with
  | some found => .ok found.offset
  | none => .error (.unresolvedField cls field)

/-- Binds the names of a body. Names bound before are forgotten. -/
def enter (env : Environment) (names : List String) : Environment := { env with locals := names }

def isLocal (env : Environment) (name : String) : Bool := env.locals.contains name

def hasLocals (env : Environment) : Bool := !env.locals.isEmpty

end Environment

end TypedWasm
