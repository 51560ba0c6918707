import TypedWasm.Text.Unseen

/-!
# Quoted text

How a name is written in a message so that every character of it can be told: between double quotes,
with quotes and backslashes escaped and characters that have no shape written by their number.
-/

namespace TypedWasm.Quoted

def hex (n : Nat) : String := String.ofList (Nat.toDigits 16 n)

def numbered (c : Char) : String := "\\u\x7b" ++ hex c.toNat ++ "\x7d"

def char (c : Char) : String :=
  if c = '"' then "\\\""
  else if c = '\\' then "\\\\"
  else if c = '\n' then "\\n"
  else if c = '\r' then "\\r"
  else if c = '\t' then "\\t"
  else if c.toNat = 0 then "\\0"
  else if c.toNat < 32 ∨ c.toNat = 127 then numbered c
  else if c.toNat < 127 then String.singleton c
  else if Unseen.contains c.toNat then numbered c
  else String.singleton c

def text (s : String) : String := "\"" ++ String.join (s.toList.map char) ++ "\""

end TypedWasm.Quoted
