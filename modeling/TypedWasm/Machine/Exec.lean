import TypedWasm.Machine.Host

/-!
# Running instructions

A total interpreter of instruction listings. Every instruction costs one unit of the machine's fuel,
and a machine without fuel traps.

## Design notes

The interpreter recurses on a depth that is no part of the machine. A listing that starts with fuel
`f` never goes deeper than `2 * f + 1`: going to the next instruction or into a body takes one unit
of fuel, and so does coming back to the start of a loop. -/

namespace TypedWasm

/-- The locals of an activation. The first of two equal names counts. -/
abbrev Frame := List (String × Word)

namespace Frame

def get? (frame : Frame) (name : String) : Option Word := frame.lookup name

def set? : Frame → String → Word → Option Frame
  | [], _, _ => none
  | (known, old) :: rest, name, value =>
    if known == name then some ((known, value) :: rest)
    else
      match set? rest name value with
      | some rest => some ((known, old) :: rest)
      | none => none

/-- The frame of a call: locals are zero, and parameters take the arguments there are. -/
def ofCall (fn : Func) (args : List Word) : Frame :=
  (fn.params.zip args).reverse ++ fn.locals.map fun name => (name, 0)

end Frame

inductive Flow where
  | next
  | branch (depth : Nat)
  | ret
  | trap (trap : Trap)
  deriving Repr, DecidableEq, Inhabited

structure State where
  machine : Machine
  locals : Frame := []
  stack : List Word := []
  deriving Repr, Inhabited

namespace State

def push (s : State) (word : Word) : State := { s with stack := word :: s.stack }

def burn (s : State) : State :=
  { s with machine := { s.machine with fuel := s.machine.fuel - 1 } }

/-- Drops words from the top until at most `height` are left. -/
def truncate (s : State) (height : Nat) : State :=
  { s with stack := s.stack.drop (s.stack.length - height) }

end State

namespace Exec

abbrev Result := Flow × State

def numeric (op : NumericOp) (left right : Word) : Except Trap Word :=
  match op with
  | .add => .ok (left + right)
  | .sub => .ok (left - right)
  | .mul => .ok (left * right)
  | .divS =>
    if right = 0 then .error .divideByZero
    else if left = -2147483648 ∧ right = -1 then .error .integerOverflow
    else .ok (left / right)
  | .remS => if right = 0 then .error .divideByZero else .ok (left % right)
  | .eq => .ok (Word.ofBool (left = right))
  | .ne => .ok (Word.ofBool (left ≠ right))
  | .ltS => .ok (Word.ofBool (left < right))
  | .gtS => .ok (Word.ofBool (left > right))
  | .gtU => .ok (Word.ofBool (left.toUInt32 > right.toUInt32))
  | .leS => .ok (Word.ofBool (left ≤ right))
  | .geS => .ok (Word.ofBool (left ≥ right))
  | .and => .ok (left &&& right)
  | .or => .ok (left ||| right)
  | .shrU => .ok (left.toUInt32 >>> right.toUInt32).toInt32

/-- The top `count` words, deepest first, and the stack below them. -/
def popArgs? (stack : List Word) (count : Nat) : Option (List Word × List Word) :=
  if stack.length < count then none else some ((stack.take count).reverse, stack.drop count)

/-- A call of a function: its body runs on a fresh frame and stack, and the top of that stack is the
result. `run` runs a listing. -/
def call (run : Code → State → Result) (m : Machine) (fn : Func) (args : List Word) :
    Machine.Effect Word :=
  match run fn.body { machine := m, locals := Frame.ofCall fn args } with
  | (.trap trap, s) => (.error trap, s.machine)
  | (_, s) =>
    match s.stack with
    | [] => (.error .stackUnderflow, s.machine)
    | word :: _ => (.ok word, s.machine)

/-- A call of an intrinsic, helper or function with arguments from the stack. -/
def callee (run : Code → State → Result) (target : Callee) (s : State) : Result :=
  let finish (rest : List Word) : Machine.Effect Word → Result
    | (.ok word, machine) => (.next, { s with machine, stack := word :: rest })
    | (.error trap, machine) => (.trap trap, { s with machine, stack := rest })
  let named (name : String) : Result :=
    match s.machine.function? name with
    | none => (.trap (.unknownFunction name), s)
    | some fn =>
      match popArgs? s.stack fn.params.length with
      | none => (.trap .stackUnderflow, s)
      | some (args, rest) => finish rest (call run s.machine fn args)
  match target with
  | .user name => named name
  | .helper helper => named helper.name
  | .intrinsic intrinsic =>
    match popArgs? s.stack intrinsic.arity with
    | none => (.trap .stackUnderflow, s)
    | some (args, rest) => finish rest (s.machine.host intrinsic args)

/-- The result of a body that is left by a jump to its own label. `atLabel` says what the jump
leaves of the state. -/
def leaveBody (atLabel : State → State) : Result → Result
  | (.branch 0, s) => (.next, atLabel s)
  | (.branch (depth + 1), s) => (.branch depth, s)
  | other => other

/-- One instruction. `run` runs a listing and `again` a loop. A jump to the end of a block drops
what the block pushed; a jump to the end of a conditional keeps it. -/
def step (run : Code → State → Result) (again : Nat → Code → State → Result)
    (instr : Instr) (s : State) : Result :=
  match instr, s.stack with
  | .const value, _ => (.next, s.push value)
  | .localGet name, _ =>
    match s.locals.get? name with
    | some value => (.next, s.push value)
    | none => (.trap (.unknownLocal name), s)
  | .localSet name, value :: rest =>
    match s.locals.set? name value with
    | some locals => (.next, { s with locals, stack := rest })
    | none => (.trap (.unknownLocal name), s)
  | .localTee name, value :: _ =>
    match s.locals.set? name value with
    | some locals => (.next, { s with locals })
    | none => (.trap (.unknownLocal name), s)
  | .load offset, address :: rest =>
    match s.machine.loadWord address offset with
    | .ok value => (.next, { s with stack := value :: rest })
    | .error trap => (.trap trap, s)
  | .store offset, value :: address :: rest =>
    match s.machine.storeWord address offset value with
    | .ok machine => (.next, { s with machine, stack := rest })
    | .error trap => (.trap trap, s)
  | .numeric op, right :: left :: rest =>
    match numeric op left right with
    | .ok value => (.next, { s with stack := value :: rest })
    | .error trap => (.trap trap, s)
  | .eqz, value :: rest => (.next, { s with stack := Word.ofBool (value = 0) :: rest })
  | .memorySize, _ => (.next, s.push (Word.ofNat s.machine.pages))
  | .memoryGrow, delta :: rest =>
    match s.machine.grow delta.toUInt32 with
    | (old, machine) => (.next, { s with machine, stack := old :: rest })
  | .call target, _ => callee run target s
  | .drop, _ :: rest => (.next, { s with stack := rest })
  | .ret, _ => (.ret, s)
  | .unreachable, _ => (.trap .unreachable, s)
  | .nop, _ => (.next, s)
  | .block body, stack => leaveBody (·.truncate stack.length) (run body s)
  | .loop body, stack => again stack.length body s
  | .cond _ thenBody elseBody, value :: rest =>
    leaveBody (·) (run (if value ≠ 0 then thenBody else elseBody) { s with stack := rest })
  | .br depth, _ => (.branch depth.toNat, s)
  | .brIf depth, value :: rest =>
    (if value ≠ 0 then .branch depth.toNat else .next, { s with stack := rest })
  | _, _ => (.trap .stackUnderflow, s)

mutual

def run : (depth : Nat) → Code → State → Result
  | 0, _, s => (.trap .outOfFuel, s)
  | _ + 1, [], s => (.next, s)
  | depth + 1, instr :: rest, s =>
    if s.machine.fuel = 0 then (.trap .outOfFuel, s)
    else
      match step (run depth) (again depth) instr s.burn with
      | (.next, s) => run depth rest s
      | other => other

/-- Runs a loop whose body started with `height` words on the stack. A jump to its label drops what
the body pushed and starts the body again. -/
def again : (depth : Nat) → (height : Nat) → Code → State → Result
  | 0, _, _, s => (.trap .outOfFuel, s)
  | depth + 1, height, body, s =>
    match run depth body s with
    | (.branch 0, s) => again depth height body (s.truncate height)
    | (.branch (label + 1), s) => (.branch label, s)
    | other => other

end

end Exec

namespace Machine

/-- Calls a loaded function. Missing arguments leave a parameter unknown, and further ones are
passed over. -/
def call (m : Machine) (name : String) (args : List Word) : Effect Word :=
  match m.function? name with
  | none => (.error (.unknownFunction name), m)
  | some fn => Exec.call (Exec.run (2 * m.fuel + 1)) m fn args

def runMain (m : Machine) (u : CompiledUnit) : Effect Word := (m.load u).call mainName []

end Machine

end TypedWasm
