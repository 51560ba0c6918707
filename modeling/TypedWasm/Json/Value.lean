/-!
# JSON values

JSON trees with members kept in the order they were written, repeated keys included. A number
written without fraction and exponent, and in the range of 64 bit integers, is an `int`; any other
number is kept as its text, since nothing in a program or configuration is fractional.

## Design notes

A variant that stands among the fields of another one may be written in more ways: its tag may be
its position among the alternatives. `Json.Place` tells the two apart.
-/

namespace TypedWasm

/-- A JSON tree. `garbled` is text of the right form that has no meaning: a string or key with half
a surrogate pair, or a number too large for a double. It may stand where nobody looks. -/
inductive Json where
  | null
  | bool (value : Bool)
  | int (value : Int)
  | decimal (text : String)
  | str (text : String)
  | arr (items : List Json)
  | obj (members : List (String × Json))
  | garbled
  deriving Repr, Inhabited

namespace Json

mutual

/-- How many containers nest in the tree. A scalar has depth `0`. -/
def depth : Json → Nat
  | .arr items => depthItems items + 1
  | .obj members => depthMembers members + 1
  | _ => 0

def depthItems : List Json → Nat
  | [] => 0
  | item :: rest => max item.depth (depthItems rest)

def depthMembers : List (String × Json) → Nat
  | [] => 0
  | (_, value) :: rest => max value.depth (depthMembers rest)

end

mutual

def isSound : Json → Bool
  | .garbled => false
  | .arr items => areSound items
  | .obj members => areMembersSound members
  | _ => true

def areSound : List Json → Bool
  | [] => true
  | item :: rest => item.isSound && areSound rest

def areMembersSound : List (String × Json) → Bool
  | [] => true
  | (_, value) :: rest => value.isSound && areMembersSound rest

end

def str? : Json → Option String
  | .str text => some text
  | _ => none

def bool? : Json → Option Bool
  | .bool value => some value
  | _ => none

def int? : Json → Option Int
  | .int value => some value
  | _ => none

def uint32? : Json → Option UInt32
  | .int value =>
    if 0 ≤ value ∧ value < 4294967296 then some (UInt32.ofNat value.toNat) else none
  | _ => none

def int32? : Json → Option Int32
  | .int value =>
    if -2147483648 ≤ value ∧ value < 2147483648 then some (Int32.ofInt value) else none
  | _ => none

def items? : Json → Option (List Json)
  | .arr items => some items
  | _ => none

def listOf? {α : Type} (read : Json → Option α) : Json → Option (List α)
  | .arr items => items.mapM read
  | _ => none

def nullable? {α : Type} (read : Json → Option α) : Json → Option (Option α)
  | .null => some none
  | value => (read value).map some

def get? (key : String) : Json → Option Json
  | .obj members => (members.reverse.find? (·.1 == key)).map (·.2)
  | _ => none

/-- The fields of a record with the given field names. An object may hold other members, but no
field twice. An array holds the fields in order, and may end early. -/
def record? (names : List String) : Json → Option (List (String × Json))
  | .obj members =>
    if names.all fun name => (members.filter (·.1 == name)).length ≤ 1 then some members else none
  | .arr items => if items.length ≤ names.length then some (names.zip items) else none
  | _ => none

def required? {α : Type} (fields : List (String × Json)) (name : String)
    (read : Json → Option α) : Option α :=
  (fields.lookup name).bind read

def optional? {α : Type} (fields : List (String × Json)) (name : String) (default : α)
    (read : Json → Option α) : Option α :=
  match fields.lookup name with
  | some value => read value
  | none => some default

inductive Place where
  /-- By itself, or in the records and lists around it. -/
  | outer
  /-- Among the fields of another variant. -/
  | inner
  deriving Repr, DecidableEq, Inhabited

def tagKey : String := "tag"

/-- The tag of a variant with the given alternatives: a name or, inside another variant, a
position. -/
def tag? (place : Place) (names : List String) : Json → Option String
  | .str name => some name
  | .int position =>
    if place = .inner ∧ 0 ≤ position then names[position.toNat]? else none
  | _ => none

/-- The tag of a variant and its remaining fields. In an array the tag comes first. -/
def tagged? (place : Place) (names : List String) : Json → Option (String × Json)
  | .obj members =>
    match members.filter (·.1 == tagKey) with
    | [(_, tag)] => do
      return (← tag? place names tag, .obj (members.filter (·.1 != tagKey)))
    | _ => none
  | .arr (tag :: rest) => do return (← tag? place names tag, .arr rest)
  | _ => none

/-- A variant without fields. An object may hold other members, an array holds nothing more. -/
def fieldless? {α : Type} (value : α) : Json → Option α
  | .obj _ => some value
  | .arr [] => some value
  | _ => none

/-- The name of an alternative without fields: its text, or an object with that one key and null.
Inside a variant an empty object may take the place of null. -/
def choice? (place : Place) : Json → Option String
  | .str name => some name
  | .obj [(name, .null)] => some name
  | .obj [(name, .obj [])] => if place = .inner then some name else none
  | _ => none

end Json

end TypedWasm
