import TypedWasm.Code.Allocation
import TypedWasm.Layout.Block
import TypedWasm.Layout.Environment

/-!
# Lowering one body

Lowering turns one function body into instructions. It reads the environment, the configuration and
the functions of the unit, and keeps count of the temporaries it made and of the helpers and
intrinsics it called. That progress is kept when lowering fails.
-/

namespace TypedWasm

namespace Lowering

structure Context where
  config : Config := {}
  env : Environment := {}
  callables : List String := []
  deriving Repr, Inhabited

structure Progress where
  temps : Nat := 0
  intrinsics : List Intrinsic := []
  helpers : List Helper := []
  deriving Repr, DecidableEq, Inhabited

/-- The name of a temporary. No source name starts with `$`. -/
def tempName (index : Nat) : String := "$t" ++ toString index

def Progress.tempNames (progress : Progress) : List String :=
  (List.range progress.temps).map tempName

end Lowering

open Lowering

/-- A step of lowering: it reads the context, and returns a value or a failure with the progress
made either way. -/
def Lower (α : Type) : Type := Context → Progress → Except Failure α × Progress

namespace Lower

@[inline] def pure {α : Type} (value : α) : Lower α := fun _ progress => (.ok value, progress)

/-- One step after another. A failed step is the last. -/
@[inline] def bind {α β : Type} (step : Lower α) (next : α → Lower β) : Lower β :=
  fun context progress =>
    match step context progress with
    | (.ok value, progress) => next value context progress
    | (.error failure, progress) => (.error failure, progress)

instance : Monad Lower where
  pure := Lower.pure
  bind := Lower.bind

def fail {α : Type} (fault : Fault) : Lower α := fun _ progress => (.error (.fault fault), progress)

def context : Lower Context := fun context progress => (.ok context, progress)

def ofResult {α : Type} (result : Except Failure α) : Lower α :=
  fun _ progress => (result, progress)

def ofLookup {α : Type} (result : Except Fault α) : Lower α := ofResult (result.mapError .fault)

def ofChecked {α : Type} (result : Checked α) : Lower α := ofResult (result.mapError .overflow)

end Lower

namespace Lowering

def bigNumbers : Lower Bool := do return (← Lower.context).config.bigNumbers

def newTemp : Lower String := fun _ progress =>
  (.ok (tempName progress.temps), { progress with temps := progress.temps + 1 })

def takeTemps : Lower (List String) := fun _ progress =>
  (.ok progress.tempNames, { progress with temps := 0 })

def intrinsic (intrinsic : Intrinsic) : Lower Instr := fun _ progress =>
  (.ok (.callIntrinsic intrinsic),
    { progress with intrinsics := progress.intrinsics.insert intrinsic })

def helper (helper : Helper) : Lower Instr := fun _ progress =>
  (.ok (.callHelper helper), { progress with helpers := progress.helpers.insert helper })

/-- A call of a function or mangled method, which has to be one of the unit. -/
def userCall (name : String) : Lower Instr := do
  if (← Lower.context).callables.contains name then return .callUser name
  else Lower.fail (.unresolvedFunction name)

/-- Allocates `size` bytes and keeps the address in a new temporary. -/
def allocate (size : UInt32) : Lower (String × Code) := do
  let temp ← newTemp
  return (temp, Allocation.static size ++ [.localSet temp])

def storeWord (address : String) (offset : UInt32) (value : Code) : Code :=
  [.localGet address] ++ value ++ [.store offset]

end Lowering

end TypedWasm
