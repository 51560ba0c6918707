import TypedWasm.Code.HelperBody
import TypedWasm.Lowering.Stmt

/-!
# Compiling units

Compiling a unit plans its layout, lowers every function, method and the top level statements, and
adds the runtime helpers those bodies call. Bodies are lowered one after another against one
environment, and one that fails does not hide the faults of the others.
-/

namespace TypedWasm

structure CompiledUnit where
  /-- Functions, then methods class by class, in the order of declaration. -/
  functions : List Func := []
  main : Func
  helpers : List Func := []
  intrinsics : List Intrinsic := []
  env : Environment := {}
  config : Config := {}
  deriving Repr, Inhabited

namespace CompiledUnit

/-- Every function in the order of function indices: functions, main, helpers. -/
def allFunctions (u : CompiledUnit) : List Func := u.functions ++ [u.main] ++ u.helpers

def find? (u : CompiledUnit) (name : String) : Option Func :=
  u.allFunctions.find? (·.name == name)

end CompiledUnit

inductive CompileFailure where
  | faults (faults : List Fault)
  | overflow (overflow : Overflow)
  deriving Repr, DecidableEq, Inhabited

def Failure.ofUnit : Failure → CompileFailure
  | .fault f => .faults [f]
  | .overflow o => .overflow o

/-- Every global slot has to lie below the heap. -/
def checkGlobalsFit (env : Environment) (config : Config) : Except Failure Unit :=
  match env.highestSlot with
  | none => .ok ()
  | some slot =>
    match config.maxGlobalSlot with
    | .error overflow => .error (.overflow overflow)
    | .ok highest =>
      if highest < slot then .error (.fault (.slotTooHigh slot config.heapStart)) else .ok ()

namespace Program

def methodNames (program : Program) : List String :=
  program.classes.flatMap fun cls => cls.methods.map fun method => mangled cls.name method.name

/-- The names that can be called from a unit. No function may take the name of the top level body.
-/
def callables (program : Program) : Except Fault (List String) :=
  let functions := program.funs.map (·.name)
  if functions.contains mainName then .error .reservedMain
  else .ok (functions ++ program.methodNames)

def routines (program : Program) : List (FunDef × String) :=
  program.funs.map (fun fn => (fn, fn.name)) ++
  program.classes.flatMap fun cls =>
    cls.methods.map fun method => (method, mangled cls.name method.name)

/-- The bodies of a unit, in order: functions, methods class by class, top level statements. -/
def bodies (program : Program) : List Lowering.Body :=
  program.routines.map (fun (fn, name) => Lowering.function fn name) ++
  [Lowering.topLevel program.inits program.stmts]

end Program

/-- What lowering one body gives: the function or the failure, and the progress made. -/
abbrev LoweredBody := Except Failure Func × Lowering.Progress

/-- Lowers a body with progress of its own. -/
def lowerBody (context : Lowering.Context) (body : Lowering.Body) : LoweredBody × Environment :=
  body.lower context {}

/-- Lowers bodies one after another, each against the environment as the one before left it. -/
def lowerBodies (context : Lowering.Context) :
    List Lowering.Body → List LoweredBody × Environment
  | [] => ([], context.env)
  | body :: rest =>
    let (lowered, env) := lowerBody context body
    let (others, env) := lowerBodies { context with env } rest
    (lowered :: others, env)

namespace LoweredBody

def overflow? (body : LoweredBody) : Option Overflow :=
  match body.1 with
  | .error (.overflow overflow) => some overflow
  | _ => none

def fault? (body : LoweredBody) : Option Fault :=
  match body.1 with
  | .error (.fault fault) => some fault
  | _ => none

/-- The functions of bodies that all lowered. Otherwise the first overflow, or else every fault in
order. -/
def collect (bodies : List LoweredBody) : Except CompileFailure (List Func) :=
  match bodies.filterMap overflow?, bodies.filterMap fault? with
  | overflow :: _, _ => .error (.overflow overflow)
  | [], [] => .ok (bodies.filterMap fun body => body.1.toOption)
  | [], faults => .error (.faults faults)

def helpers (bodies : List LoweredBody) : List Helper := bodies.flatMap (·.2.helpers)

def intrinsics (bodies : List LoweredBody) : List Intrinsic := bodies.flatMap (·.2.intrinsics)

end LoweredBody

def assemble (config : Config) (env : Environment) (bodies : List LoweredBody)
    (functions : List Func) : CompiledUnit :=
  let helpers := Helper.closure (LoweredBody.helpers bodies)
  { functions := functions.dropLast
    main := functions.getLastD { name := mainName }
    helpers := helpers.map (Helper.function config.listGrowthSlack)
    intrinsics := Intrinsic.inOrder
      (LoweredBody.intrinsics bodies ++ helpers.flatMap Helper.intrinsicDependencies)
    env
    config }

/-- Compiles a unit against an environment. The environment in the result is the extended one. -/
def compile (config : Config) (env : Environment) (program : Program) :
    Except CompileFailure CompiledUnit := do
  let env ← (env.extend program).mapError Failure.ofUnit
  (checkGlobalsFit env config).mapError Failure.ofUnit
  let callables ← program.callables.mapError fun fault => .faults [fault]
  let (bodies, env) := lowerBodies { config, env, callables } program.bodies
  let functions ← LoweredBody.collect bodies
  return assemble config env bodies functions

end TypedWasm
