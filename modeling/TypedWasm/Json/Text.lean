import TypedWasm.Json.Value
import TypedWasm.Text.DoubleRange

/-!
# JSON text

Reading and writing JSON trees as text. Writing is compact. Reading accepts the JSON grammar only:
no comments, no trailing commas, no leading zeros and no control characters in strings. What the
grammar allows but has no meaning is read as garbled.
-/

namespace TypedWasm.Json

def hexDigit (n : Nat) : Char :=
  if n < 10 then Char.ofNat (48 + n) else Char.ofNat (87 + n)

def escape (c : Char) : String :=
  if c = '"' then "\\\""
  else if c = '\\' then "\\\\"
  else if c = '\n' then "\\n"
  else if c = '\r' then "\\r"
  else if c = '\t' then "\\t"
  else if c.toNat = 8 then "\\b"
  else if c.toNat = 12 then "\\f"
  else if c.toNat < 32 then
    "\\u00" ++ String.singleton (hexDigit (c.toNat / 16)) ++
      String.singleton (hexDigit (c.toNat % 16))
  else String.singleton c

def renderString (acc text : String) : String :=
  (text.toList.foldl (fun s c => s ++ escape c) (acc.push '"')).push '"'

mutual

/-- The text of a tree, after `acc`. What is garbled is written as null. -/
def renderTo (acc : String) : Json → String
  | .null => acc ++ "null"
  | .bool true => acc ++ "true"
  | .bool false => acc ++ "false"
  | .int value => acc ++ toString value
  | .decimal text => acc ++ text
  | .str text => renderString acc text
  | .garbled => acc ++ "null"
  | .arr items => (renderItems (acc.push '[') items).push ']'
  | .obj members => (renderMembers (acc ++ "\x7b") members) ++ "\x7d"

def renderItems (acc : String) : List Json → String
  | [] => acc
  | [item] => renderTo acc item
  | item :: rest => renderItems ((renderTo acc item).push ',') rest

def renderMembers (acc : String) : List (String × Json) → String
  | [] => acc
  | [(key, value)] => renderTo ((renderString acc key).push ':') value
  | (key, value) :: rest =>
    renderMembers ((renderTo ((renderString acc key).push ':') value).push ',') rest

end

def render (json : Json) : String := renderTo "" json

def isBlank (c : Char) : Bool := c = ' ' || c = '\n' || c = '\t' || c = '\r'

def skipBlanks (text : List Char) : List Char := text.dropWhile isBlank

def hexValue? (c : Char) : Option Nat :=
  if '0' ≤ c ∧ c ≤ '9' then some (c.toNat - 48)
  else if 'a' ≤ c ∧ c ≤ 'f' then some (c.toNat - 87)
  else if 'A' ≤ c ∧ c ≤ 'F' then some (c.toNat - 55)
  else none

def fourHex? : List Char → Option (Nat × List Char)
  | a :: b :: c :: d :: rest => do
    return (((← hexValue? a) * 16 + (← hexValue? b)) * 16 + (← hexValue? c)) * 16 + (← hexValue? d)
      |> (·, rest)
  | _ => none

/-- The character after `\u`: one unit, or two that form a surrogate pair. Half a pair is no
character. -/
def unicodeEscape? (text : List Char) : Option (Option Char × List Char) := do
  let (unit, rest) ← fourHex? text
  if 0xD800 ≤ unit ∧ unit < 0xDC00 then
    match rest with
    | '\\' :: 'u' :: low =>
      let (second, after) ← fourHex? low
      if 0xDC00 ≤ second ∧ second < 0xE000 then
        return (some (Char.ofNat (0x10000 + (unit - 0xD800) * 1024 + (second - 0xDC00))), after)
      else return (none, rest)
    | _ => return (none, rest)
  else if 0xDC00 ≤ unit ∧ unit < 0xE000 then return (none, rest)
  else return (some (Char.ofNat unit), rest)

/-- The rest of a string after its opening quote. `acc` holds the characters read, last first, and
`sound` says whether all escapes so far were characters: if one is not, the string has no text. -/
def stringRest? : (fuel : Nat) → (sound : Bool) → (acc : List Char) → List Char →
    Option (Option String × List Char)
  | 0, _, _, _ => none
  | fuel + 1, sound, acc, text =>
    match text with
    | '"' :: rest => some (if sound then some (String.ofList acc.reverse) else none, rest)
    | '\\' :: 'u' :: rest =>
      match unicodeEscape? rest with
      | some (some c, rest) => stringRest? fuel sound (c :: acc) rest
      | some (none, rest) => stringRest? fuel false acc rest
      | none => none
    | '\\' :: c :: rest =>
      match c with
      | '"' => stringRest? fuel sound ('"' :: acc) rest
      | '\\' => stringRest? fuel sound ('\\' :: acc) rest
      | '/' => stringRest? fuel sound ('/' :: acc) rest
      | 'b' => stringRest? fuel sound (Char.ofNat 8 :: acc) rest
      | 'f' => stringRest? fuel sound (Char.ofNat 12 :: acc) rest
      | 'n' => stringRest? fuel sound ('\n' :: acc) rest
      | 'r' => stringRest? fuel sound ('\r' :: acc) rest
      | 't' => stringRest? fuel sound ('\t' :: acc) rest
      | _ => none
    | c :: rest =>
      if c.toNat < 32 ∨ c = '\\' then none else stringRest? fuel sound (c :: acc) rest
    | [] => none

def decimalValue (digits : List Char) : Nat :=
  digits.foldl (fun n c => n * 10 + (c.toNat - 48)) 0

def exponent? : List Char → Option (List Char × List Char)
  | e :: rest =>
    if e = 'e' ∨ e = 'E' then
      let (sign, rest) := match rest with
        | '+' :: rest => (['+'], rest)
        | '-' :: rest => (['-'], rest)
        | rest => ([], rest)
      match rest.takeWhile Char.isDigit with
      | [] => none
      | digits => some (e :: sign ++ digits, rest.dropWhile Char.isDigit)
    else some ([], e :: rest)
  | [] => some ([], [])

def fraction? : List Char → Option (List Char × List Char)
  | '.' :: rest =>
    match rest.takeWhile Char.isDigit with
    | [] => none
    | digits => some ('.' :: digits, rest.dropWhile Char.isDigit)
  | rest => some ([], rest)

def exponentValue : List Char → Int
  | _ :: '-' :: digits => -(decimalValue digits : Int)
  | _ :: '+' :: digits => decimalValue digits
  | _ :: digits => decimalValue digits
  | [] => 0

def inRange (digits fraction exponent : List Char) : Bool :=
  let places := fraction.drop 1
  DoubleRange.contains (decimalValue (digits ++ places)) (exponentValue exponent - places.length)

def number? (negative : Bool) (text : List Char) : Option (Json × List Char) := do
  let digits := text.takeWhile Char.isDigit
  if digits = [] ∨ (digits.head? = some '0' ∧ digits.length > 1) then none
  let (fraction, rest) ← fraction? (text.dropWhile Char.isDigit)
  let (exponent, rest) ← exponent? rest
  let value := decimalValue digits
  let sign := if negative then ['-'] else []
  let whole := fraction = [] ∧ exponent = []
  if whole ∧ negative = false ∧ value < 18446744073709551616 then
    return (.int value, rest)
  else if whole ∧ negative = true ∧ 0 < value ∧ value ≤ 9223372036854775808 then
    return (.int (-value), rest)
  else if !inRange digits fraction exponent then return (.garbled, rest)
  else
    return (.decimal (String.ofList (sign ++ digits ++ fraction ++ exponent)), rest)

def word? (word : List Char) (value : Json) (text : List Char) : Option (Json × List Char) :=
  if word.isPrefixOf text then some (value, text.drop word.length) else none

mutual

/-- One tree at the start of the text, and the text after it. No string in the text is as long as
`size`. -/
def readValue (size : Nat) : (fuel : Nat) → List Char → Option (Json × List Char)
  | 0, _ => none
  | fuel + 1, text =>
    match skipBlanks text with
    | '"' :: rest =>
      match stringRest? size true [] rest with
      | some (some text, rest) => some (.str text, rest)
      | some (none, rest) => some (.garbled, rest)
      | none => none
    | '[' :: rest =>
      match skipBlanks rest with
      | ']' :: rest => some (.arr [], rest)
      | rest =>
        match readItems size fuel [] rest with
        | some (items, rest) => some (.arr items, rest)
        | none => none
    | '\x7b' :: rest =>
      match skipBlanks rest with
      | '\x7d' :: rest => some (.obj [], rest)
      | rest =>
        match readMembers size fuel true [] rest with
        | some (some members, rest) => some (.obj members, rest)
        | some (none, rest) => some (.garbled, rest)
        | none => none
    | '-' :: rest => number? true rest
    | 'n' :: rest => word? ['u', 'l', 'l'] .null rest
    | 't' :: rest => word? ['r', 'u', 'e'] (.bool true) rest
    | 'f' :: rest => word? ['a', 'l', 's', 'e'] (.bool false) rest
    | rest => number? false rest

/-- Items up to the closing bracket. `acc` holds the items read, last first. -/
def readItems (size : Nat) : (fuel : Nat) → (acc : List Json) → List Char →
    Option (List Json × List Char)
  | 0, _, _ => none
  | fuel + 1, acc, text =>
    match readValue size fuel text with
    | none => none
    | some (item, rest) =>
      match skipBlanks rest with
      | ',' :: rest => readItems size fuel (item :: acc) rest
      | ']' :: rest => some ((item :: acc).reverse, rest)
      | _ => none

/-- Members up to the closing brace. `acc` holds the members read, last first, and `sound` says
whether all keys so far have a text. -/
def readMembers (size : Nat) : (fuel : Nat) → (sound : Bool) → (acc : List (String × Json)) →
    List Char → Option (Option (List (String × Json)) × List Char)
  | 0, _, _, _ => none
  | fuel + 1, sound, acc, text =>
    match skipBlanks text with
    | '"' :: rest =>
      match stringRest? size true [] rest with
      | none => none
      | some (key, rest) =>
        match skipBlanks rest with
        | ':' :: rest =>
          match readValue size fuel rest with
          | none => none
          | some (value, rest) =>
            let sound := sound && key.isSome
            let acc := (key.getD "", value) :: acc
            match skipBlanks rest with
            | ',' :: rest => readMembers size fuel sound acc rest
            | '\x7d' :: rest => some (if sound then some acc.reverse else none, rest)
            | _ => none
        | _ => none
    | _ => none

end

/-- The tree of a text that may be garbled in parts. Nothing but blanks may follow it. -/
def scan? (text : String) : Option Json :=
  let chars := text.toList
  match readValue (chars.length + 1) (chars.length + 1) chars with
  | some (json, rest) => if skipBlanks rest = [] then some json else none
  | none => none

def parse? (text : String) : Option Json := (scan? text).filter isSound

/-- How many containers may be open at once in the text of a unit or an environment. -/
def textDepth : Nat := 127

end TypedWasm.Json
