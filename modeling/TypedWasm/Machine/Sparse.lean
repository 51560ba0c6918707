/-!
# Sparse arrays

An array of a fixed, large size of which only the written places take room. It is a binary trie: an
index is followed from its highest bit down, and a part that was never written is empty.
-/

namespace TypedWasm

inductive Sparse (α : Type) where
  | empty
  | leaf (value : α)
  | node (low high : Sparse α)
  deriving Repr, Inhabited

namespace Sparse

variable {α : Type}

/-- The value at an index of `bits` bits, or `default` where nothing was written. -/
def get (default : α) : (bits : Nat) → Sparse α → (index : Nat) → α
  | 0, .leaf value, _ => value
  | bits + 1, .node low high, index =>
    if index.testBit bits then get default bits high index else get default bits low index
  | _, _, _ => default

def set : (bits : Nat) → Sparse α → (index : Nat) → (value : α) → Sparse α
  | 0, _, _, value => .leaf value
  | bits + 1, .node low high, index, value =>
    if index.testBit bits then .node low (set bits high index value)
    else .node (set bits low index value) high
  | bits + 1, _, index, value =>
    if index.testBit bits then .node .empty (set bits .empty index value)
    else .node (set bits .empty index value) .empty

end Sparse

end TypedWasm
