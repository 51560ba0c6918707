import TypedWasm.Toml.Scalar

/-!
# TOML tables under construction

A document fills its tables line by line. A table opened by a header may not be opened again, a
table that a dotted key went through may not be opened by a header, and no key is given twice.
-/

namespace TypedWasm.Toml

inductive Origin where
  | header
  | implied
  | dotted
  deriving Repr, DecidableEq, Inhabited

inductive Node where
  | value (value : Value)
  | table (origin : Origin) (entries : List (String × Node))
  | tables (items : List (List (String × Node)))
  deriving Inhabited

abbrev Entries := List (String × Node)

def update? (change : Option Node → Option Node) (key : String) : Entries → Option Entries
  | [] => do return [(key, ← change none)]
  | (known, node) :: rest =>
    if known == key then do return (known, ← change (some node)) :: rest
    else do return (known, node) :: (← update? change key rest)

def updateLast? (change : Entries → Option Entries) : List Entries → Option (List Entries)
  | [] => none
  | [item] => do return [← change item]
  | item :: rest => do return item :: (← updateLast? change rest)

/-- Adds a value under a dotted key. `origin` says where the table that holds the entries comes
from: the last part of a key with dots goes into a dotted table, and only there. A key goes through
dotted and implied tables, which are dotted from then on, and through the last table of an array,
which stays as it is. -/
def insert? (value : Value) : (origin : Origin) → (isFirst : Bool) → (key : List String) → Entries →
    Option Entries
  | _, _, [], _ => none
  | origin, isFirst, [last], entries =>
    if (origin == .dotted) == isFirst then none
    else update? (fun
      | none => some (.value value)
      | some _ => none) last entries
  | _, _, first :: rest, entries =>
    update? (fun
      | none => do return .table .dotted (← insert? value .dotted false rest [])
      | some (.table .header _) => none
      | some (.table _ inner) => do return .table .dotted (← insert? value .dotted false rest inner)
      | some (.tables items) => do
        return .tables (← updateLast? (insert? value .header false rest) items)
      | some (.value _) => none) first entries

/-- Goes down a path of headers and changes the entries there. -/
def atPath? (change : Origin → Entries → Option Entries) :
    (path : List String) → (origin : Origin) → Entries → Option Entries
  | [], origin, entries => change origin entries
  | key :: rest, _, entries =>
    update? (fun
      | none => do return .table .implied (← atPath? change rest .implied [])
      | some (.table origin inner) => do return .table origin (← atPath? change rest origin inner)
      | some (.tables items) => do
        return .tables (← updateLast? (atPath? change rest .header) items)
      | some (.value _) => none) key entries

def open? (parents : List String) (key : String) (root : Entries) : Option Entries :=
  atPath? (fun _ entries => update? (fun
    | none => some (.table .header [])
    | some (.table .implied inner) => some (.table .header inner)
    | some _ => none) key entries) parents .header root

def openItem? (parents : List String) (key : String) (root : Entries) : Option Entries :=
  atPath? (fun _ entries => update? (fun
    | none => some (.tables [[]])
    | some (.tables items) => some (.tables (items ++ [[]]))
    | some _ => none) key entries) parents .header root

mutual

def Node.finish : Node → Value
  | .value value => value
  | .table _ entries => .table (finishEntries entries)
  | .tables items => .array (finishItems items)

def finishEntries : List (String × Node) → List (String × Value)
  | [] => []
  | (key, node) :: rest => (key, node.finish) :: finishEntries rest

def finishItems : List (List (String × Node)) → List Value
  | [] => []
  | entries :: rest => .table (finishEntries entries) :: finishItems rest

end

end TypedWasm.Toml
