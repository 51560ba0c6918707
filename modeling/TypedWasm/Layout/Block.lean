import TypedWasm.Config

/-!
# Heap blocks

Every heap object is a block of words.

```text
instance  [field0, field1, ...]
list      [tag = 1, size, bound, element0, element1, ...]
tuple     [element0, element1, ...]
string    [length, char0, char1, ...]
dict      [tag = 3, size, bound, key0, value0, key1, value1, ...]
bigint    [signed limb count, limb0, limb1, ...]
```
-/

namespace TypedWasm.Block

def wordOffset (index : UInt32) : Checked UInt32 := Offset.mul index wordSize

/-- An instance has no header: field `n` is word `n`. -/
def instanceField (index : UInt32) : Checked UInt32 := wordOffset index

def instanceSize (fields : UInt32) : Checked UInt32 := wordOffset fields

/-- A tuple has no header: element `n` is word `n`. -/
def tupleElement (index : UInt32) : Checked UInt32 := wordOffset index

def tupleSize (arity : UInt32) : Checked UInt32 := wordOffset arity

def listTag : Word := 1

def tagOffset : UInt32 := 0

def sizeOffset : UInt32 := 4

def boundOffset : UInt32 := 8

/-- Bytes before the first element of a list, or the first entry of a dict. -/
def headerSize : UInt32 := 12

def listElement (index : UInt32) : Checked UInt32 := do Offset.add headerSize (← wordOffset index)

def listSize (bound : UInt32) : Checked UInt32 := do wordOffset (← Offset.add bound 3)

def lengthOffset : UInt32 := 0

def stringHeader : UInt32 := 4

/-- Byte offset of a character. A character is one word. -/
def stringChar (index : UInt32) : Checked UInt32 := do Offset.add stringHeader (← wordOffset index)

def firstChar : UInt32 := 4

def oneCharSize : UInt32 := 8

def stringSize (length : UInt32) : Checked UInt32 := do wordOffset (← Offset.add length 1)

def dictTag : Word := 3

def entrySize : UInt32 := 8

def dictKey (entry : UInt32) : Checked UInt32 := do
  Offset.add headerSize (← Offset.mul entry entrySize)

def dictValue (entry : UInt32) : Checked UInt32 := do Offset.add (← dictKey entry) wordSize

def dictSize (bound : UInt32) : Checked UInt32 := do
  Offset.add headerSize (← Offset.mul bound entrySize)

def countOffset : UInt32 := 0

def bigintHeader : UInt32 := 4

def bigintLimb (index : UInt32) : Checked UInt32 := do Offset.add bigintHeader (← wordOffset index)

def firstLimb : UInt32 := 4

def oneLimbSize : UInt32 := 8

def bigintSize (limbs : UInt32) : Checked UInt32 := do wordOffset (← Offset.add limbs 1)

end TypedWasm.Block
