import TypedWasm.Lowering.Pattern

/-!
# Lowering of statements and bodies

Statements leave the stack as they found it. A body initialises its locals, runs its statements and
returns one word.
-/

namespace TypedWasm.Lowering

mutual

def stmt : Stmt → Lower Code
  | .ret value => do return (← expr value) ++ [.ret]
  | .assign target value => do
    let source ← newTemp
    let code ← expr value
    return code ++ [.localSet source] ++ (← pattern target source)
  | .expr value => do return (← expr value) ++ [.localSet scratchLocal]
  | .cond test thenBody elseBody => do
    let test ← expr test
    let thenCode ← block thenBody
    let elseCode ← block elseBody
    return test ++ [.cond false thenCode elseCode]
  | .loop test body => do
    let test ← expr test
    let body ← block body
    return [.block [.loop (test ++ [.eqz, .brIf 1] ++ body ++ [.br 0])]]
  | .pass => return []

def block : List Stmt → Lower Code
  | [] => return []
  | first :: rest => do
    let code ← stmt first
    return code ++ (← block rest)

end

def localInits : List VarInit → Lower Code
  | [] => return []
  | init :: rest => do
    let value ← literal init.value
    return value ++ [.localSet init.name] ++ (← localInits rest)

def globalInits : List VarInit → Lower Code
  | [] => return []
  | init :: rest => do
    let address ← Lower.ofResult ((← Lower.context).env.globalAddress init.name)
    let value ← literal init.value
    return [.constU address] ++ value ++ [.store 0] ++ (← globalInits rest)

/-- The lowering of a whole body. All bodies of a unit share one environment, which keeps the names
of the body that is being lowered, and each hands the environment on as it leaves it. -/
def Scoped (α : Type) : Type := Context → Progress → (Except Failure α × Progress) × Environment

/-- Marks `names` as local until the body is done. They are cleared whichever way it ended. -/
def inScope {α : Type} (names : List String) (body : Lower α) : Scoped α := fun context progress =>
  let env := context.env.enter names
  (body { context with env } progress, env.leave)

/-- A body to lower: a function or method under its final name, or the top level statements. -/
structure Body where
  name : String
  params : List String := []
  inits : List VarInit
  stmts : List Stmt
  /-- Whether its variables are globals. -/
  isTop : Bool := false

namespace Body

def locals (body : Body) : List String := bif body.isTop then [] else body.inits.map (·.name)

def start (body : Body) : Lower Code :=
  bif body.isTop then globalInits body.inits else localInits body.inits

/-- Falling off the end returns none, or at the top level the value of the last expression
statement. -/
def last (body : Body) : Instr := bif body.isTop then .localGet scratchLocal else .const 0

/-- The function a body becomes, with its code and its temporaries. -/
def func (body : Body) (start code : Code) (temps : List String) : Func :=
  { name := body.name, params := body.params, locals := body.locals ++ [scratchLocal] ++ temps
    body := start ++ code ++ [body.last], exported := true }

/-- Variables are initialised before anything runs. -/
def lower (body : Body) : Scoped Func :=
  inScope (body.params ++ body.locals) do
    let start ← body.start
    let code ← block body.stmts
    return body.func start code (← takeTemps)

end Body

def function (fn : FunDef) (name : String) : Body :=
  { name, params := fn.parameters.map (·.name), inits := fn.inits, stmts := fn.body }

def topLevel (inits : List VarInit) (stmts : List Stmt) : Body :=
  { name := mainName, inits, stmts, isTop := true }

end TypedWasm.Lowering
