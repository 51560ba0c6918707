import TypedWasm.Code.Instr
import TypedWasm.Config

/-!
# Heap allocation

The heap head lives at address `0`. Allocating reads the head, leaves it on the stack as the address
of the new block and advances the stored head by the block's size. When the new head runs past the
end of memory, memory grows by the missing pages, and a failed growth traps. Nothing is ever freed.
-/

namespace TypedWasm.Allocation

def loadHead : Code := [.constU heapHeadAddress, .load 0]

/-- Pushes the number of pages that hold everything below the head. -/
def pagesBelowHead : Code :=
  loadHead ++ [.constU (pageSize - 1), .add, .const 16, .numeric .shrU]

/-- Grows memory until everything below the head lies in it. -/
def growToHead : Code :=
  pagesBelowHead ++
  [.memorySize, .numeric .gtU,
   .when (pagesBelowHead ++
     [.memorySize, .sub, .memoryGrow, .const (-1), .numeric .eq, .when [.unreachable]])]

/-- Pushes the old head and advances the head by the pushed size. -/
def bump (size : Instr) : Code :=
  loadHead ++
  [.constU heapHeadAddress] ++ loadHead ++ [size, .add, .store 0] ++
  growToHead

def static (size : UInt32) : Code := bump (.constU size)

def dynamic (sizeLocal : String) : Code := bump (.localGet sizeLocal)

end TypedWasm.Allocation
