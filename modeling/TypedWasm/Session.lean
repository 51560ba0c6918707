import TypedWasm.Machine.Exec

/-!
# Sessions

A session compiles units one after the other against one environment and runs them on one machine,
so a unit sees the globals, classes and heap objects of those before it.
-/

namespace TypedWasm

structure Session where
  config : Config
  env : Environment := {}
  machine : Machine
  deriving Inhabited

inductive GlobalFailure where
  | unplanned (failure : Failure)
  | trapped (trap : Trap)
  deriving Repr, DecidableEq, Inhabited

namespace Session

/-- A fresh session: nothing is declared, and the memory has its least size. -/
def start? (config : Config) : Except StartFailure Session := do
  return { config, machine := ← Machine.start? config }

/-- Compiles a unit against the environment of the session. The session takes over the extended
environment. -/
def compile (s : Session) (program : Program) : Except CompileFailure (CompiledUnit × Session) := do
  let u ← TypedWasm.compile s.config s.env program
  return (u, { s with env := u.env })

/-- Runs the top level body of a unit. The environment stays as it is, also when the run traps. -/
def run (s : Session) (u : CompiledUnit) : Except Trap Word × Session :=
  let (result, machine) := s.machine.runMain u
  (result, { s with machine })

def call (s : Session) (name : String) (args : List Word) : Except Trap Word × Session :=
  let (result, machine) := s.machine.call name args
  (result, { s with machine })

def global (s : Session) (name : String) : Except GlobalFailure Word := do
  let address ← (s.env.globalAddress name).mapError .unplanned
  (s.machine.loadWord (Word.ofUInt32 address) 0).mapError .trapped

def globals (s : Session) : Except GlobalFailure (List (String × Word)) :=
  s.env.globals.mapM fun (name, _) => do return (name, ← s.global name)

def decode (s : Session) (ty : Ty) (word : Word) : Except Trap Value :=
  s.machine.decode s.config.bigNumbers ty word

end Session

end TypedWasm
