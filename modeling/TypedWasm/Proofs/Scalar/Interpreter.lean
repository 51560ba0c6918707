import Mathlib.Tactic.Ring
import TypedWasm.Machine.State

/-!
# A direct interpreter of scalar programs

The meaning of programs on numbers, truth values and none, given without instructions or memory.
Arithmetic is that of the integers, and a result is wrapped to a word. Calls and loops may not end,
so the interpreter takes a bound and gives no answer where it is too low, and none for what is not
scalar.
-/

namespace TypedWasm

/-- Whether values of a type are words with no object behind them, where numbers are words. -/
def Ty.isScalar : Ty → Bool
  | .number | .bool | .none => true
  | _ => false

def Literal.isScalar : Literal → Bool
  | .string _ => false
  | _ => true

mutual

/-- Whether an expression uses scalars only. -/
def Expr.isScalar : Expr → Bool
  | .literal _ value => value.isScalar
  | .id .. => true
  | .binary _ _ left right =>
    left.ty.isScalar && right.ty.isScalar && left.isScalar && right.isScalar
  | .unary _ _ operand => operand.ty.isScalar && operand.isScalar
  | .call _ _ args => Expr.allScalar args
  | .builtin1 _ .print arg => arg.ty.isScalar && arg.isScalar
  | .builtin1 _ .abs arg => arg.isScalar
  | .builtin2 _ _ left right => left.isScalar && right.isScalar
  | _ => false

def Expr.allScalar : List Expr → Bool
  | [] => true
  | first :: rest => first.isScalar && Expr.allScalar rest

end

/-- The name a pattern of one position assigns to, or nothing if the position is ignored. Other
patterns are not scalar. -/
def Pattern.scalarTarget? (pattern : Pattern) : Option (Option String) :=
  match pattern.isDestructured, pattern.slots with
  | false, [slot] =>
    if slot.ignore then some none
    else
      match slot.target with
      | .id name => some (some name)
      | _ => none
  | _, _ => none

mutual

def Stmt.isScalar : Stmt → Bool
  | .ret value => value.isScalar
  | .assign pattern value => pattern.scalarTarget?.isSome && value.isScalar
  | .expr value => value.isScalar
  | .cond test thenBody elseBody =>
    test.isScalar && Stmt.allScalar thenBody && Stmt.allScalar elseBody
  | .loop test body => test.isScalar && Stmt.allScalar body
  | .pass => true

def Stmt.allScalar : List Stmt → Bool
  | [] => true
  | first :: rest => first.isScalar && Stmt.allScalar rest

end

def FunDef.isScalar (fn : FunDef) : Bool :=
  fn.inits.all (·.value.isScalar) && Stmt.allScalar fn.body

/-- Whether the functions and the top level of a unit use scalars only. Methods are then never
called, and may be anything. -/
def Program.isScalar (program : Program) : Bool :=
  program.inits.all (·.value.isScalar) && program.funs.all FunDef.isScalar &&
    Stmt.allScalar program.stmts

namespace Scalar

abbrev Store := List (String × Word)

/-- Writes the word of a name: in place if the name is known, at the end otherwise. -/
def Store.put : Store → String → Word → Store
  | [], name, word => [(name, word)]
  | (known, old) :: rest, name, word =>
    if known = name then (known, word) :: rest else (known, old) :: put rest name word

/-- What a program acts on. -/
structure World where
  globals : Store := []
  output : Array String := #[]
  /-- The locals of the running function. They shadow globals. -/
  locals : Store := []
  /-- The value of the last expression statement of the running body. -/
  latest : Word := 0
  deriving Repr, DecidableEq, Inhabited

namespace World

def read? (world : World) (name : String) : Option Word :=
  (world.locals.lookup name).or (world.globals.lookup name)

/-- Writes a variable that is there. -/
def write? (world : World) (name : String) (word : Word) : Option World :=
  if (world.locals.lookup name).isSome then some { world with locals := world.locals.put name word }
  else if (world.globals.lookup name).isSome then
    some { world with globals := world.globals.put name word }
  else none

end World

/-- A computation. It may have no answer; otherwise it gives a value or traps. -/
def Eval (α : Type) : Type := World → Option (Except Trap α × World)

namespace Eval

variable {α β : Type}

@[inline] def pure (value : α) : Eval α := fun world => some (.ok value, world)

/-- One computation after another. A trap is the last. -/
@[inline] def bind (first : Eval α) (next : α → Eval β) : Eval β := fun world =>
  match first world with
  | some (.ok value, world) => next value world
  | some (.error trap, world) => some (.error trap, world)
  | none => none

instance : Monad Eval where
  pure := Eval.pure
  bind := Eval.bind

def stuck : Eval α := fun _ => none

def ofResult (result : Except Trap α) : Eval α := fun world => some (result, world)

def ofOption (value : Option α) : Eval α := fun world => value.map fun found => (.ok found, world)

def get : Eval World := fun world => some (.ok world, world)

def modify (change : World → World) : Eval Unit := fun world => some (.ok (), change world)

end Eval

def literalWord? : Literal → Option Word
  | .num value => some (Word.ofInt value)
  | .bool value => some (Word.ofBool value)
  | .none => some 0
  | .string _ => none

/-- An operator on numbers. Division rounds towards zero. -/
def operate (op : BinaryOp) (left right : Int) : Except Trap Word :=
  match op with
  | .plus => .ok (Word.ofInt (left + right))
  | .minus => .ok (Word.ofInt (left - right))
  | .mul => .ok (Word.ofInt (left * right))
  | .idiv =>
    if right = 0 then .error .divideByZero
    else if Word.fits (left.tdiv right) then .ok (Word.ofInt (left.tdiv right))
    else .error .integerOverflow
  | .mod => if right = 0 then .error .divideByZero else .ok (Word.ofInt (left.tmod right))
  | .eq | .is => .ok (Word.ofBool (left = right))
  | .ne => .ok (Word.ofBool (left ≠ right))
  | .lt => .ok (Word.ofBool (left < right))
  | .lte => .ok (Word.ofBool (left ≤ right))
  | .gt => .ok (Word.ofBool (left > right))
  | .gte => .ok (Word.ofBool (left ≥ right))
  | .and => .ok (if left = 0 then 0 else Word.ofInt right)
  | .or => .ok (if left = 0 then Word.ofInt right else 1)

def operateUnary : UnaryOp → Word → Word
  | .neg, word => Word.ofInt (-word.toInt)
  | .not, word => Word.ofBool (word.toInt = 0)

/-- A builtin of two arguments. An exponent is read unsigned. -/
def builtin2Word : Builtin2 → Word → Word → Word
  | .pow, left, right => Word.ofInt (left.toInt ^ right.toAddress)
  | .min, left, right => Word.ofInt (min left.toInt right.toInt)
  | .max, left, right => Word.ofInt (max left.toInt right.toInt)

/-- How a value of a type is printed. -/
def shown? : Ty → Word → Option String
  | .number, word => some (toString word.toInt)
  | .bool, word => some (if word.toInt = 0 then "False" else "True")
  | .none, _ => some "None"
  | _, _ => none

def print (line : String) : Eval Unit :=
  Eval.modify fun world => { world with output := world.output.push line }

def read (name : String) : Eval Word := fun world =>
  (world.read? name).map fun word => (.ok word, world)

def write (name : String) (word : Word) : Eval Unit := fun world =>
  (world.write? name word).map fun written => (.ok (), written)

def assign (pattern : Pattern) (word : Word) : Eval Unit :=
  match pattern.scalarTarget? with
  | some (some name) => write name word
  | some none => return
  | none => Eval.stuck

/-- Keeps the value of an expression statement. -/
def keep (word : Word) : Eval Unit := Eval.modify fun world => { world with latest := word }

/-- A binary operator. The logical operators look at their right operand only if it decides. -/
def binary (op : BinaryOp) (left right : Eval Word) : Eval Word := do
  let a ← left
  match op with
  | .and => if a.toInt = 0 then return 0 else right
  | .or => if a.toInt = 0 then right else return 1
  | op =>
    let b ← right
    Eval.ofResult (operate op a.toInt b.toInt)

/-- Prints a value and gives it back. -/
def printed (ty : Ty) (arg : Eval Word) : Eval Word := do
  let word ← arg
  print (← Eval.ofOption (shown? ty word))
  return word

section Computations

-- What a call of a function does.
variable (call : String → List Word → Eval Word)

mutual

def expr : Expr → Eval Word
  | .literal _ value => Eval.ofOption (literalWord? value)
  | .id _ name => read name
  | .binary _ op left right => binary op (expr left) (expr right)
  | .unary _ op operand => do return operateUnary op (← expr operand)
  | .call _ name args => do call name (← exprs args)
  | .builtin1 _ .print arg => printed arg.ty (expr arg)
  | .builtin1 _ .abs arg => do return Word.ofInt (← expr arg).toInt.natAbs
  | .builtin2 _ name left right => do
    let a ← expr left
    let b ← expr right
    return builtin2Word name a b
  | _ => Eval.stuck

/-- Expressions from left to right. -/
def exprs : List Expr → Eval (List Word)
  | [] => return []
  | first :: rest => do
    let word ← expr first
    return word :: (← exprs rest)

end

/-- How a statement ends. -/
inductive Completion where
  | next
  | returned (word : Word)
  deriving Repr, DecidableEq, Inhabited

/-- The word a body returned, or another one if it fell off its end. -/
def Completion.word (fallen : Word) : Completion → Word
  | .next => fallen
  | .returned word => word

/-- Goes on after a statement that did not return. -/
def Completion.andThen (first next : Eval Completion) : Eval Completion := do
  match ← first with
  | .next => next
  | done => return done

/-- Repeats a body while a test gives a word other than zero, at most `bound` times. -/
def repeatWhile (test : Eval Word) (body : Eval Completion) : (bound : Nat) → Eval Completion
  | 0 => Eval.stuck
  | bound + 1 => do
    if (← test).toInt = 0 then return .next
    else Completion.andThen body (repeatWhile test body bound)

variable (bound : Nat)

mutual

def stmt : Stmt → Eval Completion
  | .ret value => do return .returned (← expr call value)
  | .assign pattern value => do
    assign pattern (← expr call value)
    return .next
  | .expr value => do
    keep (← expr call value)
    return .next
  | .cond test thenBody elseBody => do
    if (← expr call test).toInt = 0 then block elseBody else block thenBody
  | .loop test body => repeatWhile (expr call test) (block body) bound
  | .pass => return .next

/-- Statements in order, up to a return. -/
def block : List Stmt → Eval Completion
  | [] => return .next
  | first :: rest => Completion.andThen (stmt first) (block rest)

end

end Computations

def declareLocals : List VarInit → Eval Unit
  | [] => return
  | init :: rest => do
    let word ← Eval.ofOption (literalWord? init.value)
    Eval.modify fun world => { world with locals := world.locals.put init.name word }
    declareLocals rest

def declareGlobals : List VarInit → Eval Unit
  | [] => return
  | init :: rest => do
    let word ← Eval.ofOption (literalWord? init.value)
    Eval.modify fun world => { world with globals := world.globals.put init.name word }
    declareGlobals rest

/-- Runs a body on locals of its own. The caller's come back after it, also when it traps. -/
def activate {α : Type} (locals : Store) (body : Eval α) : Eval α := fun caller =>
  (body { caller with locals, latest := 0 }).map fun (result, world) =>
    (result, { world with locals := caller.locals, latest := caller.latest })

/-- A call. The locals of a function are its parameters and then its declared variables. Falling
off its end gives none. -/
def invoke (program : Program) : (bound : Nat) → String → List Word → Eval Word
  | 0, _, _ => Eval.stuck
  | bound + 1, name, args => do
    let fn ← Eval.ofOption (program.funs.find? (·.name == name))
    activate ((fn.parameters.map (·.name)).zip args) do
      declareLocals fn.inits
      return (← block (invoke program bound) bound fn.body).word 0

/-- The top level of a program. Its value is the one returned, or else that of the last expression
statement. -/
def topLevel (program : Program) (bound : Nat) : Eval Word := do
  declareGlobals program.inits
  let completion ← block (invoke program bound) bound program.stmts
  return completion.word (← Eval.get).latest

/-- A whole program, from nothing. -/
def evaluate (program : Program) (bound : Nat) : Option (Except Trap Word × World) :=
  topLevel program bound {}

end Scalar

end TypedWasm
