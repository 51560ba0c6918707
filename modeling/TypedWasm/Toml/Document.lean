import TypedWasm.Toml.Quoted
import TypedWasm.Toml.Table

/-!
# TOML documents

A document is a sequence of lines: keys with values, and headers that open tables. Arrays and inline
tables may go over several lines and hold comments.
-/

namespace TypedWasm.Toml

def skipBlanks (text : List Char) : List Char := text.dropWhile isBlank

/-- The text after a comment, if one starts here. The newline that ends it is left. -/
def skipComment? : List Char → Option (List Char)
  | '#' :: rest =>
    let isEnd (c : Char) : Bool := c = '\n' || c = '\r'
    if (rest.takeWhile (!isEnd ·)).all isPlain then some (rest.dropWhile (!isEnd ·)) else none
  | text => some text

/-- The text after the end of a line: blanks, a comment and a newline, or the end of the document.
-/
def lineEnd? (text : List Char) : Option (List Char) := do
  let rest ← skipComment? (skipBlanks text)
  if rest.isEmpty then some [] else newline? rest

def skipSpace? : (fuel : Nat) → List Char → Option (List Char)
  | 0, text => some text
  | fuel + 1, text =>
    match skipComment? (skipBlanks text) with
    | none => none
    | some rest =>
      match newline? rest with
      | some rest => skipSpace? fuel rest
      | none => some rest

def isBare (c : Char) : Bool := c.isAlphanum || c = '-' || c = '_'

def simpleKey? (text : List Char) : Option (String × List Char) :=
  match text with
  | '"' :: '"' :: '"' :: _ => none
  | '\'' :: '\'' :: '\'' :: _ => none
  | '"' :: _ | '\'' :: _ => quoted? text
  | _ =>
    match text.takeWhile isBare with
    | [] => none
    | bare => some (String.ofList bare, text.dropWhile isBare)

def maxParts : Nat := 80

/-- A dotted key of at most `parts` parts, with the blanks after it skipped. -/
def keyParts? : (parts : Nat) → List Char → Option (List String × List Char)
  | 0, _ => none
  | parts + 1, text => do
    let (first, rest) ← simpleKey? (skipBlanks text)
    match skipBlanks rest with
    | '.' :: rest =>
      let (others, rest) ← keyParts? parts rest
      return (first :: others, rest)
    | rest => return ([first], rest)

def key? (text : List Char) : Option (List String × List Char) := keyParts? maxParts text

def maxDepth : Nat := 80

def isAtom (c : Char) : Bool := isBare c || c = '+' || c = '.' || c = ':'

/-- An unquoted value. A blank may stand between a date and a time. -/
def atom? (text : List Char) : Option (Value × List Char) := do
  let word := text.takeWhile isAtom
  let rest := text.dropWhile isAtom
  match date? word, rest with
  | some [], ' ' :: c :: more =>
    if c.isDigit then
      let time := (c :: more).takeWhile isAtom
      return (← scalar? (word ++ ' ' :: time), (c :: more).dropWhile isAtom)
    else return (← scalar? word, rest)
  | _, _ => return (← scalar? word, rest)

mutual

/-- A value of at most `depth` nested arrays and inline tables. -/
def value? : (fuel : Nat) → (depth : Nat) → List Char → Option (Value × List Char)
  | 0, _, _ => none
  | fuel + 1, depth, text =>
    match text with
    | '"' :: _ | '\'' :: _ => do
      let (content, rest) ← string? text
      return (.string content, rest)
    | '[' :: rest => if depth = 0 then none else items? fuel (depth - 1) [] rest
    | '\x7b' :: rest => if depth = 0 then none else entries? fuel (depth - 1) [] rest
    | _ => atom? text

def items? : (fuel : Nat) → (depth : Nat) → (acc : List Value) → List Char →
    Option (Value × List Char)
  | 0, _, _, _ => none
  | fuel + 1, depth, acc, text => do
    match ← skipSpace? text.length text with
    | ']' :: rest => return (.array acc.reverse, rest)
    | text =>
      let (item, rest) ← value? fuel depth text
      match ← skipSpace? rest.length rest with
      | ',' :: rest => items? fuel depth (item :: acc) rest
      | ']' :: rest => return (.array (item :: acc).reverse, rest)
      | _ => none

/-- The rest of an inline table. `acc` holds the entries read. Lines may end on either side of an
equals sign. -/
def entries? : (fuel : Nat) → (depth : Nat) → (acc : Entries) → List Char →
    Option (Value × List Char)
  | 0, _, _, _ => none
  | fuel + 1, depth, acc, text => do
    match ← skipSpace? text.length text with
    | '\x7d' :: rest => return (.table (finishEntries acc), rest)
    | text =>
      let (key, rest) ← key? text
      match ← skipSpace? rest.length rest with
      | '=' :: rest =>
        let (value, rest) ← value? fuel depth (← skipSpace? rest.length rest)
        let acc ← insert? value .header true key acc
        match ← skipSpace? rest.length rest with
        | ',' :: rest => entries? fuel depth acc rest
        | '\x7d' :: rest => return (.table (finishEntries acc), rest)
        | _ => none
      | _ => none

end

/-- A header: whether it opens the next table of an array, the path of the table and the text after
it. -/
def header? : List Char → Option (Bool × List String × List Char)
  | '[' :: '[' :: rest => do
    match ← key? rest with
    | (path, ']' :: ']' :: rest) => return (true, path, rest)
    | _ => none
  | '[' :: rest => do
    match ← key? rest with
    | (path, ']' :: rest) => return (false, path, rest)
    | _ => none
  | _ => none

def lines? : (fuel : Nat) → (current : List String) → (root : Entries) → List Char → Option Entries
  | 0, _, root, text => if text.isEmpty then some root else none
  | fuel + 1, current, root, text => do
    match ← skipSpace? text.length text with
    | [] => return root
    | '[' :: rest =>
      let (isItem, path, rest) ← header? ('[' :: rest)
      let parents := path.dropLast
      let key ← path.getLast?
      let root ← if isItem then openItem? parents key root else open? parents key root
      lines? fuel path root (← lineEnd? rest)
    | text =>
      let (key, rest) ← key? text
      match rest with
      | '=' :: rest =>
        let (value, rest) ← value? (rest.length + 1) maxDepth (skipBlanks rest)
        let root ← atPath? (fun origin => insert? value origin true key) current .header root
        lines? fuel current root (← lineEnd? rest)
      | _ => none

/-- The entries of a document. A byte order mark at its start is skipped. -/
def document? (text : String) : Option (List (String × Value)) :=
  let chars := match text.toList with
    | c :: rest => if c.toNat = 0xFEFF then rest else c :: rest
    | [] => []
  (lines? (chars.length + 1) [] [] chars).map finishEntries

end TypedWasm.Toml
