import TypedWasm.Lowering.Expr

/-!
# Lowering of assignment

Assigns a value held in a local to the positions of a pattern. Positions are assigned from left to
right, and the expressions inside a target run only when that target is assigned: in
`i, x[i] = 1, 2` the index sees the new `i`.
-/

namespace TypedWasm.Lowering

def assignTo (target : Target) (value : Code) : Lower Code := do
  let env := (← Lower.context).env
  match target with
  | .id name =>
    if env.isLocal name then return value ++ [.localSet name]
    else
      let address ← Lower.ofResult (env.globalAddress name)
      return [.constU address] ++ value ++ [.store 0]
  | .lookup object field =>
    let cls ← requiredClass object.ty
    let offset ← Lower.ofLookup (env.fieldOffset cls field)
    let object ← expr object
    return object ++ value ++ [.store (← Lower.ofChecked (Block.instanceField offset))]
  | .index object key =>
    match object.ty with
    | .list _ => return (← elementAddress object key) ++ value ++ [.store 0]
    | .dict _ _ => Lower.fail .dictAssignment
    | ty => Lower.fail (.notAssignable ty)

/-- Assigns to every position, in order. `valueAt` pushes the word for a position; an ignored
position takes none. -/
def assignSlots (valueAt : Nat → Lower Code) :
    (position : Nat) → List Slot → Lower Code
  | _, [] => return []
  | position, slot :: rest => do
    if slot.ignore then assignSlots valueAt (position + 1) rest
    else
      let code ← assignTo slot.target (← valueAt position)
      return code ++ (← assignSlots valueAt (position + 1) rest)

def wholeValue (slots : List Slot) (source : String) : Lower Code :=
  match slots with
  | [slot] =>
    if slot.starred then Lower.fail .loneStar
    else if slot.ignore then return []
    else assignTo slot.target [.localGet source]
  | _ => Lower.fail (.targetCount slots.length)

def rejectStarred (slots : List Slot) (source : String) : Lower Unit :=
  if slots.any (·.starred) then Lower.fail (.starredSource source) else return

def partOf (source : String) (offset : Checked UInt32) : Lower Code := do
  return [.localGet source, .load (← Lower.ofChecked offset)]

/-- Takes an instance apart by position, in the order its fields were declared. -/
def instanceParts (cls : String) (slots : List Slot) (source : String) : Lower Code := do
  rejectStarred slots "class instances"
  let fields := (← Lower.ofLookup ((← Lower.context).env.classLayout cls)).fields
  if fields.length ≠ slots.length then
    Lower.fail (.fieldCount cls fields.length slots.length)
  else
    assignSlots (fun position =>
      match fields[position]? with
      | some field => partOf source (Block.instanceField field.offset)
      | none => return []) 0 slots

def tupleParts (arity : Nat) (slots : List Slot) (source : String) : Lower Code := do
  rejectStarred slots "tuples"
  if arity ≠ slots.length then Lower.fail (.tupleArity arity slots.length)
  else
    assignSlots (fun position => partOf source (Block.tupleElement (UInt32.ofNat position))) 0 slots

def elementOf (source : String) (index : Code) : Lower Code := do
  return [.localGet source] ++ index ++ [← helper .listElementAddress, .load 0]

/-- The word for a position of a list pattern of `count` positions. The starred position takes a
slice; positions after it count back from the end. -/
def listPart (source size : String) (count : Nat) (star : Option Nat) (position : Nat) :
    Lower Code := do
  match star with
  | some starred =>
    if position = starred then
      return [.localGet source, .const (Word.ofNat starred), .localGet size,
        .const (Word.ofNat (count - 1 - starred)), .sub, ← helper .listSlice]
    else if starred < position then
      elementOf source [.localGet size, .const (Word.ofNat (count - position)), .sub]
    else elementOf source [.const (Word.ofNat position)]
  | none => elementOf source [.const (Word.ofNat position)]

/-- Takes a list apart. Its size is known only at run time, so a mismatch is reported then: without
a starred position the sizes have to agree, with one the list may be longer. -/
def listParts (slots : List Slot) (source : String) : Lower Code := do
  let stars := slots.countP (·.starred)
  if 1 < stars then Lower.fail (.manyStars stars)
  else
    let star := slots.findIdx? (·.starred)
    let count := slots.length
    let size ← newTemp
    let (required, mismatch) : Nat × NumericOp :=
      if star.isNone then (count, .ne) else (count - 1, .ltS)
    let unpackError ← intrinsic .unpackError
    let check : Code :=
      [.localGet source, .load Block.sizeOffset, .localSet size,
       .localGet size, .const (Word.ofNat required), .numeric mismatch,
       .when [.const (Word.ofNat required), .localGet size, unpackError, .unreachable]]
    return check ++ (← assignSlots (listPart source size count star) 0 slots)

def pattern (pattern : Pattern) (source : String) : Lower Code :=
  if pattern.isDestructured then
    match pattern.valueType with
    | .cls name => instanceParts name pattern.slots source
    | .tuple elements => tupleParts elements.length pattern.slots source
    | .list _ => listParts pattern.slots source
    | ty => Lower.fail (.notDestructurable ty)
  else wholeValue pattern.slots source

end TypedWasm.Lowering
