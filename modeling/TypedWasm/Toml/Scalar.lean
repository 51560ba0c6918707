import TypedWasm.Text.DoubleRange

/-!
# TOML scalars

Numbers, truth values and dates, read from one unquoted word.
-/

namespace TypedWasm.Toml

/-- A value. Numbers that are not whole and dates are kept as text. -/
inductive Value where
  | string (text : String)
  | integer (value : Int)
  | float (text : String)
  | boolean (value : Bool)
  | dateTime (text : String)
  | array (items : List Value)
  | table (entries : List (String × Value))
  deriving Repr, Inhabited

def digit? (base : Nat) (c : Char) : Option Nat :=
  let value :=
    if '0' ≤ c ∧ c ≤ '9' then c.toNat - 48
    else if 'a' ≤ c ∧ c ≤ 'f' then c.toNat - 87
    else if 'A' ≤ c ∧ c ≤ 'F' then c.toNat - 55
    else base
  if value < base then some value else none

/-- Whether the text is digits, with single underscores between digits only. -/
def isGrouped (isDigit : Char → Bool) : (afterDigit : Bool) → List Char → Bool
  | afterDigit, [] => afterDigit
  | afterDigit, c :: rest =>
    if c = '_' then afterDigit && isGrouped isDigit false rest
    else isDigit c && isGrouped isDigit true rest

def grouped? (base : Nat) (text : List Char) : Option Nat :=
  if isGrouped (fun c => (digit? base c).isSome) false text then
    some ((text.filterMap (digit? base)).foldl (fun n d => n * base + d) 0)
  else none

/-- Whether the text starts with a zero that another digit follows. -/
def hasLeadingZero : List Char → Bool
  | '0' :: _ :: _ => true
  | _ => false

def whole? (text : List Char) : Option Nat :=
  if hasLeadingZero text then none else grouped? 10 text

/-- Whether an integer is in the range of 128 bit numbers, signed or unsigned. -/
def inRange (n : Int) : Bool := -(Int.pow 2 127) ≤ n && n < Int.pow 2 128

def splitSign : List Char → Bool × List Char
  | '+' :: rest => (false, rest)
  | '-' :: rest => (true, rest)
  | rest => (false, rest)

def exponent? (text : List Char) : Option Int := do
  let (negative, digits) := splitSign text
  let value ← grouped? 10 digits
  return if negative then -value else value

/-- A float without its sign, with zeros in front or not as `integral?` reads its integral part. -/
def isFloat (integral? : List Char → Option Nat) (text : List Char) : Bool :=
  let isExponentMark (c : Char) : Bool := c = 'e' || c = 'E'
  let mantissa := text.takeWhile (!isExponentMark ·)
  let exponentText := (text.dropWhile (!isExponentMark ·)).drop 1
  let hasExponent := text.any isExponentMark
  let integral := mantissa.takeWhile (· != '.')
  let fraction := (mantissa.dropWhile (· != '.')).drop 1
  let hasFraction := mantissa.contains '.'
  match integral? integral, (if hasFraction then grouped? 10 fraction else some 0),
      (if hasExponent then exponent? exponentText else some 0) with
  | some high, some low, some exponent =>
    let places := (fraction.filter (· != '_')).length
    (hasFraction || hasExponent) &&
      DoubleRange.contains (high * Nat.pow 10 places + low) (exponent - places)
  | _, _, _ => false

def marked? : List Char → Option Nat
  | '0' :: 'x' :: rest => grouped? 16 rest
  | '0' :: 'o' :: rest => grouped? 8 rest
  | '0' :: 'b' :: rest => grouped? 2 rest
  | _ => none

def decimal? (integral? : List Char → Option Nat) (negative : Bool) (text : List Char) :
    Option Value :=
  match integral? text with
  | some value =>
    let signed : Int := if negative then -value else value
    if inRange signed then some (.integer signed) else none
  | none =>
    if isFloat integral? text then
      some (.float (String.ofList (if negative then '-' :: text else text)))
    else none

/-- An integer or float. An underscore may set off the digits from a sign, and zeros may then stand
in front of them. -/
def number? (text : List Char) : Option Value :=
  match marked? text with
  | some value => if inRange value then some (.integer value) else none
  | none =>
    let (negative, rest) := splitSign text
    if rest = ['i', 'n', 'f'] ∨ rest = ['n', 'a', 'n'] then some (.float (String.ofList text))
    else
      match rest with
      | '_' :: digits =>
        if rest = text then none else decimal? (grouped? 10) negative digits
      | _ => decimal? whole? negative rest

def twoDigits? (a b : Char) : Option Nat := do
  return (← digit? 10 a) * 10 + (← digit? 10 b)

def daysIn (year month : Nat) : Nat :=
  if month = 2 then
    if year % 4 = 0 ∧ (year % 100 ≠ 0 ∨ year % 400 = 0) then 29 else 28
  else if month = 4 ∨ month = 6 ∨ month = 9 ∨ month = 11 then 30
  else 31

def date? : List Char → Option (List Char)
  | y1 :: y2 :: y3 :: y4 :: '-' :: m1 :: m2 :: '-' :: d1 :: d2 :: rest => do
    let year := (← twoDigits? y1 y2) * 100 + (← twoDigits? y3 y4)
    let month ← twoDigits? m1 m2
    let day ← twoDigits? d1 d2
    if 1 ≤ month ∧ month ≤ 12 ∧ 1 ≤ day ∧ day ≤ daysIn year month then some rest else none
  | _ => none

def seconds? : List Char → Option (List Char)
  | ':' :: s1 :: s2 :: rest => do
    if 60 < (← twoDigits? s1 s2) then none
    match rest with
    | '.' :: fraction =>
      if (fraction.takeWhile Char.isDigit).isEmpty then none
      else some (fraction.dropWhile Char.isDigit)
    | rest => some rest
  | rest => some rest

def time? : List Char → Option (List Char)
  | h1 :: h2 :: ':' :: m1 :: m2 :: rest => do
    if 23 < (← twoDigits? h1 h2) ∨ 59 < (← twoDigits? m1 m2) then none
    seconds? rest
  | _ => none

def isOffset : List Char → Bool
  | [] => true
  | ['Z'] | ['z'] => true
  | [sign, h1, h2, ':', m1, m2] =>
    (sign = '+' || sign = '-') &&
    match twoDigits? h1 h2, twoDigits? m1 m2 with
    | some hours, some minutes => hours ≤ 23 && minutes ≤ 59
    | _, _ => false
  | _ => false

/-- Whether the text is a date, a time, or a date and a time with or without an offset. -/
def isDateTime (text : List Char) : Bool :=
  match date? text with
  | some [] => true
  | some (mark :: rest) =>
    (mark = 'T' || mark = 't' || mark = ' ') && ((time? rest).map isOffset).getD false
  | none => time? text = some []

def scalar? (text : List Char) : Option Value :=
  if text = ['t', 'r', 'u', 'e'] then some (.boolean true)
  else if text = ['f', 'a', 'l', 's', 'e'] then some (.boolean false)
  else if isDateTime text then some (.dateTime (String.ofList text))
  else number? text

end TypedWasm.Toml
