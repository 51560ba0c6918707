import TypedWasm.Toml.Scalar

/-!
# TOML strings

The four kinds of quoted text: basic and literal, on one line or on several. Basic strings have
escapes, literal strings have none.
-/

namespace TypedWasm.Toml

def isPlain (c : Char) : Bool := c = '\t' || (32 ≤ c.toNat && c.toNat != 127)

/-- The character with the code that `count` hexadecimal digits give, and the text after them. -/
def codePoint? (count : Nat) (text : List Char) : Option (Char × List Char) := do
  let digits ← (text.take count).mapM (digit? 16)
  let code := digits.foldl (fun n d => n * 16 + d) 0
  if digits.length = count ∧ (code < 0xD800 ∨ (0xDFFF < code ∧ code < 0x110000)) then
    return (Char.ofNat code, text.drop count)
  else none

def escape? : List Char → Option (Char × List Char)
  | 'b' :: rest => some (Char.ofNat 8, rest)
  | 't' :: rest => some ('\t', rest)
  | 'n' :: rest => some ('\n', rest)
  | 'f' :: rest => some (Char.ofNat 12, rest)
  | 'r' :: rest => some ('\r', rest)
  | 'e' :: rest => some (Char.ofNat 27, rest)
  | '"' :: rest => some ('"', rest)
  | '\\' :: rest => some ('\\', rest)
  | 'x' :: rest => codePoint? 2 rest
  | 'u' :: rest => codePoint? 4 rest
  | 'U' :: rest => codePoint? 8 rest
  | _ => none

def newline? : List Char → Option (List Char)
  | '\n' :: rest => some rest
  | '\r' :: '\n' :: rest => some rest
  | _ => none

def isBlank (c : Char) : Bool := c = ' ' || c = '\t'

def skipLines : (fuel : Nat) → List Char → List Char
  | 0, text => text
  | fuel + 1, text =>
    let text := text.dropWhile isBlank
    match newline? text with
    | some rest => skipLines fuel rest
    | none => text

/-- The rest of a basic string. `acc` holds the characters read, last first. -/
def basicRest? : (fuel : Nat) → (acc : List Char) → List Char → Option (String × List Char)
  | 0, _, _ => none
  | fuel + 1, acc, text =>
    match text with
    | '"' :: rest => some (String.ofList acc.reverse, rest)
    | '\\' :: rest =>
      match escape? rest with
      | some (c, rest) => basicRest? fuel (c :: acc) rest
      | none => none
    | c :: rest => if isPlain c then basicRest? fuel (c :: acc) rest else none
    | [] => none

def literalRest? (text : List Char) : Option (String × List Char) :=
  let content := text.takeWhile (· != '\'')
  match text.dropWhile (· != '\'') with
  | _ :: rest => if content.all isPlain then some (String.ofList content, rest) else none
  | [] => none

def quoted? : List Char → Option (String × List Char)
  | '"' :: rest => basicRest? (rest.length + 1) [] rest
  | '\'' :: rest => literalRest? rest
  | _ => none

def trimFirst (text : List Char) : List Char := (newline? text).getD text

/-- The end of a string whose next characters are three or more of its quote: up to two of them
belong to the string. -/
def closing (quote : Char) (acc text : List Char) : String × List Char :=
  let quotes := (text.takeWhile (· == quote)).length
  let kept := min (quotes - 3) 2
  (String.ofList (List.replicate kept quote ++ acc).reverse, text.drop (kept + 3))

/-- The rest of a basic string on several lines. A backslash at the end of a line skips the blanks
and newlines after it. -/
def basicLinesRest? : (fuel : Nat) → (acc : List Char) → List Char → Option (String × List Char)
  | 0, _, _ => none
  | fuel + 1, acc, text =>
    match text with
    | '"' :: '"' :: '"' :: _ => some (closing '"' acc text)
    | '\\' :: rest =>
      match escape? rest with
      | some (c, rest) => basicLinesRest? fuel (c :: acc) rest
      | none =>
        match newline? (rest.dropWhile isBlank) with
        | some rest => basicLinesRest? fuel acc (skipLines rest.length rest)
        | none => none
    | '\r' :: '\n' :: rest => basicLinesRest? fuel ('\n' :: '\r' :: acc) rest
    | c :: rest => if isPlain c ∨ c = '\n' then basicLinesRest? fuel (c :: acc) rest else none
    | [] => none

def literalLinesRest? : (fuel : Nat) → (acc : List Char) → List Char → Option (String × List Char)
  | 0, _, _ => none
  | fuel + 1, acc, text =>
    match text with
    | '\'' :: '\'' :: '\'' :: _ => some (closing '\'' acc text)
    | '\r' :: '\n' :: rest => literalLinesRest? fuel ('\n' :: '\r' :: acc) rest
    | c :: rest => if isPlain c ∨ c = '\n' then literalLinesRest? fuel (c :: acc) rest else none
    | [] => none

def string? : List Char → Option (String × List Char)
  | '"' :: '"' :: '"' :: rest => basicLinesRest? (rest.length + 1) [] (trimFirst rest)
  | '\'' :: '\'' :: '\'' :: rest => literalLinesRest? (rest.length + 1) [] (trimFirst rest)
  | text => quoted? text

end TypedWasm.Toml
