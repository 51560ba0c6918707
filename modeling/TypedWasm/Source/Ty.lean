/-!
# Static types

The type every expression carries. Class types compare by name, all others by structure.
-/

namespace TypedWasm

inductive Ty where
  | number
  | bool
  | string
  | none
  | cls (name : String)
  | list (element : Ty)
  | tuple (elements : List Ty)
  | dict (key value : Ty)
  deriving Repr, Inhabited

namespace Ty

mutual

def same : Ty → Ty → Bool
  | .number, .number => true
  | .bool, .bool => true
  | .string, .string => true
  | .none, .none => true
  | .cls a, .cls b => a == b
  | .list a, .list b => a.same b
  | .tuple as, .tuple bs => sameAll as bs
  | .dict k v, .dict k' v' => k.same k' && v.same v'
  | _, _ => false

def sameAll : List Ty → List Ty → Bool
  | [], [] => true
  | a :: as, b :: bs => a.same b && sameAll as bs
  | _, _ => false

end

mutual

theorem same_iff : ∀ a b : Ty, a.same b = true ↔ a = b
  | .number, b => by cases b <;> simp [same]
  | .bool, b => by cases b <;> simp [same]
  | .string, b => by cases b <;> simp [same]
  | .none, b => by cases b <;> simp [same]
  | .cls a, b => by cases b <;> simp [same]
  | .list a, b => by cases b <;> simp [same, same_iff a]
  | .tuple as, b => by cases b <;> simp [same, sameAll_iff as]
  | .dict k v, b => by cases b <;> simp [same, same_iff k, same_iff v]

theorem sameAll_iff : ∀ as bs : List Ty, sameAll as bs = true ↔ as = bs
  | [], bs => by cases bs <;> simp [sameAll]
  | a :: as, bs => by cases bs <;> simp [sameAll, same_iff a, sameAll_iff as]

end

instance : DecidableEq Ty := fun a b => decidable_of_iff _ (same_iff a b)

def className? : Ty → Option String
  | .cls name => some name
  | _ => Option.none

def isList : Ty → Bool
  | .list _ => true
  | _ => false

def isString : Ty → Bool
  | .string => true
  | _ => false

def isHeapAllocated : Ty → Bool
  | .number | .bool | .none => false
  | _ => true

mutual

def text : Ty → String
  | .number => "int"
  | .bool => "bool"
  | .string => "str"
  | .none => "None"
  | .cls name => name
  | .list element => "[" ++ element.text ++ "]"
  | .tuple elements => "(" ++ commaText elements ++ ")"
  | .dict key value => "\x7b" ++ key.text ++ ": " ++ value.text ++ "\x7d"

def commaText : List Ty → String
  | [] => ""
  | [ty] => ty.text
  | ty :: rest => ty.text ++ ", " ++ commaText rest

end

end Ty

end TypedWasm
