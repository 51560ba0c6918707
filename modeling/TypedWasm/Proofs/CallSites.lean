import TypedWasm.Compile

/-!
# The calls of a unit

Collects the calls in a unit: the final name of the function each call names, with the number of
words it passes. A method gets its receiver and an initialiser the new instance before the written
arguments.
-/

namespace TypedWasm

/-- The final name of a called function and the number of words passed. -/
abbrev CallSite := String × Nat

mutual

def Expr.callSites : Expr → List CallSite
  | .literal .. | .id .. => []
  | .binary _ _ left right => left.callSites ++ right.callSites
  | .unary _ _ operand => operand.callSites
  | .call _ name args => (name, args.length) :: Expr.allCallSites args
  | .builtin1 _ _ arg => arg.callSites
  | .builtin2 _ _ left right => left.callSites ++ right.callSites
  | .construct _ cls args => (mangled cls initMethod, args.length + 1) :: Expr.allCallSites args
  | .methodCall _ object method args =>
    (object.ty.className?.map fun cls => (mangled cls method, args.length + 1)).toList ++
      (object.callSites ++ Expr.allCallSites args)
  | .lookup _ object _ => object.callSites
  | .index _ object key => object.callSites ++ key.callSites
  | .list _ elements => Expr.allCallSites elements
  | .tuple _ elements => Expr.allCallSites elements
  | .dict _ entries => Expr.entryCallSites entries

def Expr.allCallSites : List Expr → List CallSite
  | [] => []
  | first :: rest => first.callSites ++ Expr.allCallSites rest

def Expr.entryCallSites : List (Expr × Expr) → List CallSite
  | [] => []
  | (key, value) :: rest => key.callSites ++ (value.callSites ++ Expr.entryCallSites rest)

end

def Target.callSites : Target → List CallSite
  | .id _ => []
  | .lookup object _ => object.callSites
  | .index object key => object.callSites ++ key.callSites

def Pattern.callSites (pattern : Pattern) : List CallSite :=
  pattern.slots.flatMap fun slot => slot.target.callSites

mutual

def Stmt.callSites : Stmt → List CallSite
  | .ret value => value.callSites
  | .assign pattern value => pattern.callSites ++ value.callSites
  | .expr value => value.callSites
  | .cond test thenBody elseBody =>
    test.callSites ++ (Stmt.allCallSites thenBody ++ Stmt.allCallSites elseBody)
  | .loop test body => test.callSites ++ Stmt.allCallSites body
  | .pass => []

def Stmt.allCallSites : List Stmt → List CallSite
  | [] => []
  | first :: rest => first.callSites ++ Stmt.allCallSites rest

end

namespace Program

def callSites (program : Program) : List CallSite :=
  program.routines.flatMap (fun routine => Stmt.allCallSites routine.1.body) ++
    Stmt.allCallSites program.stmts

/-- Every call of a function or method of the unit passes a word for every parameter. -/
def CallsMatch (program : Program) : Prop :=
  ∀ site ∈ program.callSites, ∀ routine ∈ program.routines, routine.2 = site.1 →
    routine.1.parameters.length = site.2

/-- The number of parameters of a function or method, by its final name. The first of two equal
names counts. -/
def arityOf (program : Program) (name : String) : Nat :=
  ((program.routines.find? (·.2 == name)).map (·.1.parameters.length)).getD 0

end Program

namespace Lowering

/-- Calls of functions of the unit that pass a word for every parameter. -/
def Passes (arity : String → Nat) (context : Context) (sites : List CallSite) : Prop :=
  ∀ site ∈ sites, site.1 ∈ context.callables → arity site.1 = site.2

variable {arity : String → Nat} {context : Context}

theorem passes_append {first second : List CallSite} : Passes arity context (first ++ second) ↔
      Passes arity context first ∧ Passes arity context second :=
  List.forall_mem_append

theorem passes_cons {site : CallSite} {rest : List CallSite} : Passes arity context (site :: rest) ↔
      (site.1 ∈ context.callables → arity site.1 = site.2) ∧ Passes arity context rest :=
  List.forall_mem_cons

end Lowering

end TypedWasm
