import Mathlib.Data.List.TakeWhile
import TypedWasm.Json.Text

/-!
# Text of JSON trees

A tree that holds no number but integers in range is read back from its text: what is written first
tells the reader which kind of tree follows, and nothing that follows a number goes on with it.
-/

namespace TypedWasm.Json

open List Nat Option

variable {n fuel size : Nat} {c : Char} {json : Json} {rest : List Char} (key text : String)
  {item : Json}

/-- The characters of a string between its quotes. -/
def escaped (text : String) : List Char := text.toList.flatMap fun c => (escape c).toList

theorem toList_renderString (acc text : String) :
    (renderString acc text).toList = acc.toList ++ '"' :: escaped text ++ ['"'] := by
  have hfold : ∀ (chars : List Char) (start : String),
      (chars.foldl (fun s c => s ++ escape c) start).toList =
        start.toList ++ chars.flatMap fun c => (escape c).toList := by
    intro chars
    induction chars with
    | nil => simp
    | cons c rest ih => simp [ih]
  simp [renderString, hfold, escaped]

theorem renderItems_cons (acc : String) (item second : Json) (rest : List Json) :
    renderItems acc (item :: second :: rest) =
      renderItems ((renderTo acc item).push ',') (second :: rest) := by
  rw [renderItems]
  simp

theorem renderMembers_cons (acc key : String) (value : Json) (second : String × Json)
    (rest : List (String × Json)) : renderMembers acc ((key, value) :: second :: rest) =
      renderMembers ((renderTo ((renderString acc key).push ':') value).push ',')
        (second :: rest) := by
  rw [renderMembers]
  simp

mutual

theorem toList_renderTo (acc : String) (json : Json) :
    (renderTo acc json).toList = acc.toList ++ (render json).toList := by
  cases json with
  | null | garbled | int | decimal => simp [render, renderTo]
  | bool value => cases value <;> simp [render, renderTo]
  | str text => simp [render, renderTo, toList_renderString]
  | arr items =>
    rw [render, renderTo, renderTo, String.toList_push, String.toList_push,
      toList_renderItems (acc.push _), toList_renderItems (String.push _ _)]
    simp
  | obj members =>
    rw [render, renderTo, renderTo, String.toList_append, String.toList_append,
      toList_renderMembers (acc ++ _), toList_renderMembers ("" ++ _)]
    simp

theorem toList_renderItems (acc : String) (items : List Json) :
    (renderItems acc items).toList = acc.toList ++ (renderItems "" items).toList := by
  match items with
  | [] => simp [renderItems]
  | [item] => rw [renderItems, renderItems, toList_renderTo, render]
  | item :: second :: rest =>
    rw [renderItems_cons, renderItems_cons, toList_renderItems (String.push (renderTo acc item) _),
      toList_renderItems (String.push (renderTo "" item) _), String.toList_push, String.toList_push,
      toList_renderTo acc item, render]
    simp

theorem toList_renderMembers (acc : String) (members : List (String × Json)) :
    (renderMembers acc members).toList = acc.toList ++ (renderMembers "" members).toList := by
  match members with
  | [] => simp [renderMembers]
  | [(key, value)] =>
    rw [renderMembers, renderMembers, toList_renderTo _ value,
      toList_renderTo (String.push (renderString "" key) _) value]
    simp [toList_renderString]
  | (key, value) :: second :: rest =>
    rw [renderMembers_cons, renderMembers_cons,
      toList_renderMembers (String.push (renderTo (String.push (renderString acc key) _) value) _),
      toList_renderMembers (String.push (renderTo (String.push (renderString "" key) _) value) _),
      String.toList_push, String.toList_push, toList_renderTo _ value,
      toList_renderTo (String.push (renderString "" key) _) value]
    simp [toList_renderString]

end

def chars (json : Json) : List Char := (render json).toList

def itemChars (items : List Json) : List Char := (renderItems "" items).toList

def memberChars (members : List (String × Json)) : List Char := (renderMembers "" members).toList

theorem chars_null : chars .null = ['n', 'u', 'l', 'l'] := by
  simp [chars, render, renderTo]

theorem chars_true : chars (.bool true) = ['t', 'r', 'u', 'e'] := by
  simp [chars, render, renderTo]

theorem chars_false : chars (.bool false) = ['f', 'a', 'l', 's', 'e'] := by
  simp [chars, render, renderTo]

theorem chars_str : chars (.str text) = '"' :: escaped text ++ ['"'] := by
  simp [chars, render, renderTo, toList_renderString]

theorem chars_arr (items : List Json) : chars (.arr items) = '[' :: itemChars items ++ [']'] := by
  rw [chars, render, renderTo, String.toList_push, toList_renderItems, itemChars]
  simp

theorem chars_obj (members : List (String × Json)) :
    chars (.obj members) = '\x7b' :: memberChars members ++ ['\x7d'] := by
  rw [chars, render, renderTo, String.toList_append, toList_renderMembers, memberChars]
  simp

theorem itemChars_singleton (item : Json) : itemChars [item] = chars item := by
  rw [itemChars, renderItems, chars, render]

theorem itemChars_cons (item second : Json) (rest : List Json) :
    itemChars (item :: second :: rest) = chars item ++ ',' :: itemChars (second :: rest) := by
  rw [itemChars, renderItems_cons, toList_renderItems, String.toList_push, itemChars, chars, render]
  simp

theorem memberChars_singleton (value : Json) :
    memberChars [(key, value)] = '"' :: escaped key ++ '"' :: ':' :: chars value := by
  rw [memberChars, renderMembers, toList_renderTo, String.toList_push, toList_renderString, chars]
  simp

theorem memberChars_cons (value : Json) (second : String × Json) (rest : List (String × Json)) :
    memberChars ((key, value) :: second :: rest) =
      '"' :: escaped key ++ '"' :: ':' :: chars value ++ ',' :: memberChars (second :: rest) := by
  rw [memberChars, renderMembers_cons, toList_renderMembers, String.toList_push, toList_renderTo,
    String.toList_push, toList_renderString, memberChars, chars]
  simp

theorem hexValue?_hexDigit : ∀ d < 16, hexValue? (hexDigit d) = some d := by decide

theorem unicodeEscape?_hex (h : n < 32) (rest : List Char) :
    unicodeEscape? ('0' :: '0' :: hexDigit (n / 16) :: hexDigit (n % 16) :: rest) =
      some (some (Char.ofNat n), rest) := by
  have hzero : hexValue? '0' = some 0 := by decide
  have hfour : fourHex? ('0' :: '0' :: hexDigit (n / 16) :: hexDigit (n % 16) :: rest) =
      some (n, rest) := by
    have hsum : n / 16 * 16 + n % 16 = n := by omega
    simp [fourHex?, hzero, hexValue?_hexDigit (n / 16) (by omega),
      hexValue?_hexDigit (n % 16) (by omega), hsum]
  simp only [unicodeEscape?, hfour, bind_eq_bind, bind_some]
  rw [if_neg (by omega), if_neg (by omega)]
  rfl

theorem stringRest?_escape (fuel : Nat) (acc : List Char) (c : Char) (rest : List Char) :
    stringRest? (fuel + 1) true acc ((escape c).toList ++ rest) =
      stringRest? fuel true (c :: acc) rest := by
  rw [escape]
  split
  · next h => subst h; rfl
  split
  · next h => subst h; rfl
  split
  · next h => subst h; rfl
  split
  · next h => subst h; rfl
  split
  · next h => subst h; rfl
  split
  · next h =>
    obtain rfl : c = Char.ofNat 8 := by rw [← h, Char.ofNat_toNat]
    rfl
  split
  · next h =>
    obtain rfl : c = Char.ofNat 12 := by rw [← h, Char.ofNat_toNat]
    rfl
  split
  · next h =>
    have hhex := unicodeEscape?_hex h rest
    rw [Char.ofNat_toNat] at hhex
    simp only [String.toList_append, String.toList_singleton, append_assoc]
    show stringRest? (fuel + 1) true acc ('\\' :: 'u' :: '0' :: '0' :: _ :: _ :: rest) = _
    rw [stringRest?, hhex]
  · next hquote hslash _ _ _ _ _ hcontrol =>
    rw [String.toList_singleton]
    show stringRest? (fuel + 1) true acc (c :: rest) = _
    rw [stringRest?, if_neg (not_or.2 ⟨hcontrol, hslash⟩)]
    · exact hquote
    · exact fun _ hc _ => hslash hc
    · exact fun _ _ hc _ => hslash hc

theorem stringRest?_escaped {text : List Char} (h : text.length < fuel) (acc rest : List Char) :
    stringRest? fuel true acc ((text.flatMap fun c => (escape c).toList) ++ '"' :: rest) =
      some (some (String.ofList (acc.reverse ++ text)), rest) := by
  induction text generalizing fuel acc with
  | nil =>
    obtain ⟨fuel, rfl⟩ := exists_eq_succ_of_ne_zero (Nat.ne_zero_of_lt h)
    simp [stringRest?]
  | cons c text ih =>
    obtain ⟨fuel, rfl⟩ := exists_eq_succ_of_ne_zero (Nat.ne_zero_of_lt h)
    rw [flatMap_cons, append_assoc, stringRest?_escape,
      ih (lt_of_succ_lt_succ h), reverse_cons, append_assoc]
    rfl

theorem length_le_escaped : text.toList.length ≤ (escaped text).length := by
  rw [escaped, length_flatMap]
  induction text.toList with
  | nil => simp
  | cons c rest ih =>
    have hone : 1 ≤ (escape c).toList.length := by
      rw [escape]
      split_ifs <;> simp
    simp only [length_cons, map_cons, sum_cons]
    omega

theorem stringRest?_text {text : String} (h : (escaped text).length < size) (rest : List Char) :
    stringRest? size true [] (escaped text ++ '"' :: rest) = some (some text, rest) := by
  rw [escaped, stringRest?_escaped (Nat.lt_of_le_of_lt (length_le_escaped text) h)]
  simp

/-- What may follow a tree: nothing, or what ends an item or a member. -/
def Ends (rest : List Char) : Prop := ∀ c ∈ rest.head?, c = ',' ∨ c = ']' ∨ c = '\x7d'

theorem decimalValue_toDigits (n : Nat) : decimalValue (Nat.toDigits 10 n) = n := by
  have hfold : ∀ (digits : List Char) (start : Nat),
      digits.foldl (fun n c => n * 10 + (c.toNat - 48)) start =
        Nat.ofDigitChars 10 digits start := by
    intro digits
    induction digits with
    | nil => intro start; rfl
    | cons c rest ih =>
      intro start
      rw [foldl_cons, ih, ofDigitChars_cons, Nat.mul_comm]
      rfl
  rw [decimalValue, hfold, ofDigitChars_ten_toDigits]

theorem head?_toDigits (h : 0 < n) : (Nat.toDigits 10 n).head? ≠ some '0' := by
  induction n using Nat.strongRecOn with
  | ind n ih =>
    by_cases hsmall : n < 10
    · rw [toDigits_of_lt_base hsmall]
      have hne : ∀ d < 10, 0 < d → Nat.digitChar d ≠ '0' := by decide
      simpa using hne n hsmall h
    · have hfront := ih (n / 10) (by omega) (by omega)
      rw [toDigits_of_base_le (by decide) (by omega)]
      cases hdigits : Nat.toDigits 10 (n / 10) with
      | nil => exact absurd hdigits toDigits_ne_nil
      | cons c rest =>
        rw [hdigits] at hfront
        exact hfront

theorem length_toDigits_le (n : Nat) (h : (Nat.toDigits 10 n).head? = some '0') :
    (Nat.toDigits 10 n).length ≤ 1 := by
  by_cases hn : n = 0
  · simp [hn]
  · exact absurd h (head?_toDigits (Nat.pos_of_ne_zero hn))

section Number

variable (hrest : Ends rest)
include hrest

theorem span_toDigits (n : Nat) :
    (Nat.toDigits 10 n ++ rest).takeWhile Char.isDigit = Nat.toDigits 10 n ∧
      (Nat.toDigits 10 n ++ rest).dropWhile Char.isDigit = rest := by
  have hdigits : ∀ c ∈ Nat.toDigits 10 n, c.isDigit = true :=
    fun c => isDigit_of_mem_toDigits (by decide) (by decide)
  rw [takeWhile_append_of_pos hdigits, dropWhile_append_of_pos hdigits]
  cases rest with
  | nil => simp
  | cons c more =>
    have hend : c.isDigit = false := by
      rcases hrest c rfl with rfl | rfl | rfl <;> rfl
    simp [hend]

theorem fraction?_ends : fraction? rest = some ([], rest) := by
  cases rest with
  | nil => rfl
  | cons c more => rcases hrest c rfl with rfl | rfl | rfl <;> rfl

theorem exponent?_ends : exponent? rest = some ([], rest) := by
  cases rest with
  | nil => rfl
  | cons c more => rcases hrest c rfl with rfl | rfl | rfl <;> rfl

theorem number?_natural (h : n < 18446744073709551616) :
    number? false (Nat.toDigits 10 n ++ rest) = some (.int n, rest) := by
  obtain ⟨htake, hdrop⟩ := span_toDigits hrest n
  simpa [number?, htake, hdrop, fraction?_ends hrest, exponent?_ends hrest,
    decimalValue_toDigits, h] using length_toDigits_le n

theorem number?_negative (hpos : 0 < n) (h : n ≤ 9223372036854775808) :
    number? true (Nat.toDigits 10 n ++ rest) = some (.int (-n), rest) := by
  obtain ⟨htake, hdrop⟩ := span_toDigits hrest n
  simpa [number?, htake, hdrop, fraction?_ends hrest, exponent?_ends hrest,
    decimalValue_toDigits, hpos, h] using length_toDigits_le n

end Number

mutual

/-- Whether every number in the tree is an integer that is read back. -/
def Plain : Json → Prop
  | .int value => -9223372036854775808 ≤ value ∧ value < 18446744073709551616
  | .decimal _ | .garbled => False
  | .arr items => PlainItems items
  | .obj members => PlainMembers members
  | _ => True

def PlainItems : List Json → Prop
  | [] => True
  | item :: rest => item.Plain ∧ PlainItems rest

def PlainMembers : List (String × Json) → Prop
  | [] => True
  | (_, value) :: rest => value.Plain ∧ PlainMembers rest

end

theorem chars_int_natural (n : Nat) : chars (.int n) = Nat.toDigits 10 n := by
  show ("" ++ Int.repr (Int.ofNat n)).toList = _
  simp [Int.repr]

theorem chars_int_negative (h : 0 < n) : chars (.int (-n)) = '-' :: Nat.toDigits 10 n := by
  obtain ⟨k, rfl⟩ := exists_eq_succ_of_ne_zero (Nat.ne_of_gt h)
  show ("" ++ Int.repr (Int.negSucc k)).toList = _
  simp [Int.repr]

theorem isBlank_digit (h : c.isDigit = true) : isBlank c = false := by
  rw [Bool.eq_false_iff]
  intro hblank
  simp only [isBlank, Bool.or_eq_true, decide_eq_true_eq] at hblank
  rcases hblank with ((rfl | rfl) | rfl) | rfl <;> simp at h

theorem chars_starts (h : json.Plain) :
    ∃ c rest, chars json = c :: rest ∧ isBlank c = false ∧ c ≠ ']' := by
  cases json with
  | null => exact ⟨_, _, rfl, by decide, by decide⟩
  | bool value => cases value <;> exact ⟨_, _, rfl, by decide, by decide⟩
  | int value =>
    have hdigit : ∀ n, ∃ c rest, Nat.toDigits 10 n = c :: rest ∧ isBlank c = false ∧ c ≠ ']' := by
      intro n
      cases hdigits : Nat.toDigits 10 n with
      | nil => exact absurd hdigits toDigits_ne_nil
      | cons c rest =>
        have hc : c.isDigit = true :=
          isDigit_of_mem_toDigits (by decide) (by decide) (hdigits ▸ mem_cons_self ..)
        refine ⟨c, rest, rfl, isBlank_digit hc, ?_⟩
        rintro rfl
        simp at hc
    rcases Int.eq_nat_or_neg value with ⟨n, rfl | rfl⟩
    · rw [chars_int_natural]
      exact hdigit n
    · by_cases hn : n = 0
      · subst hn
        exact hdigit 0
      · rw [chars_int_negative (Nat.pos_of_ne_zero hn)]
        exact ⟨_, _, rfl, by decide, by decide⟩
  | decimal text => exact absurd h id
  | garbled => exact absurd h id
  | str text => rw [chars_str]; exact ⟨_, _, rfl, by decide, by decide⟩
  | arr items => rw [chars_arr]; exact ⟨_, _, rfl, by decide, by decide⟩
  | obj members => rw [chars_obj]; exact ⟨_, _, rfl, by decide, by decide⟩

theorem skipBlanks_cons (h : isBlank c = false) (rest : List Char) :
    skipBlanks (c :: rest) = c :: rest := by
  rw [skipBlanks, dropWhile_cons_of_neg (by simp [h])]

theorem readValue_digit (h : c.isDigit = true) (rest : List Char) :
    readValue size (fuel + 1) (c :: rest) = number? false (c :: rest) := by
  rw [readValue, skipBlanks_cons (isBlank_digit h)]
  split
  all_goals first
    | rfl
    | (next heq => cases heq; simp at h)

theorem readValue_int {value : Int} (h : (Json.int value).Plain) (hrest : Ends rest) :
    readValue size (fuel + 1) (chars (.int value) ++ rest) = some (.int value, rest) := by
  rw [Plain] at h
  have hnatural : ∀ n : Nat, n < 18446744073709551616 →
      readValue size (fuel + 1) (chars (.int n) ++ rest) = some (.int n, rest) := by
    intro n hn
    rw [chars_int_natural, ← number?_natural hrest hn]
    cases hdigits : Nat.toDigits 10 n with
    | nil => exact absurd hdigits toDigits_ne_nil
    | cons c more =>
      exact readValue_digit
        (isDigit_of_mem_toDigits (by decide) (by decide) (hdigits ▸ mem_cons_self ..)) _
  rcases Int.eq_nat_or_neg value with ⟨n, rfl | rfl⟩
  · exact hnatural n (by omega)
  · by_cases hn : n = 0
    · subst hn
      exact hnatural 0 (by decide)
    · rw [chars_int_negative (Nat.pos_of_ne_zero hn), cons_append, readValue,
        skipBlanks_cons (by decide)]
      exact number?_negative hrest (Nat.pos_of_ne_zero hn) (by omega)

section Steps

variable {text : List Char}

theorem readValue_str {value : String}
    (h : stringRest? size true [] text = some (some value, rest)) :
    readValue size (fuel + 1) ('"' :: text) = some (.str value, rest) := by
  rw [readValue, skipBlanks_cons (by decide)]
  split
  · next heq =>
    cases heq
    rw [h]
  all_goals simp_all

theorem readValue_bracket : readValue size (fuel + 1) ('[' :: text) =
    match skipBlanks text with
    | ']' :: rest => some (.arr [], rest)
    | rest =>
      match readItems size fuel [] rest with
      | some (items, rest) => some (.arr items, rest)
      | none => none :=
  rfl

theorem readValue_arr {c : Char} {items : List Json} (hblank : isBlank c = false) (hopen : c ≠ ']')
    (h : readItems size fuel [] (c :: text) = some (items, rest)) :
    readValue size (fuel + 1) ('[' :: c :: text) = some (.arr items, rest) := by
  rw [readValue_bracket, skipBlanks_cons hblank]
  split
  · next heq =>
    cases heq
    exact absurd rfl hopen
  · rw [h]

theorem readValue_brace : readValue size (fuel + 1) ('\x7b' :: '"' :: text) =
    match readMembers size fuel true [] ('"' :: text) with
    | some (some members, rest) => some (.obj members, rest)
    | some (none, rest) => some (.garbled, rest)
    | none => none :=
  rfl

theorem readValue_obj {members : List (String × Json)}
    (h : readMembers size fuel true [] ('"' :: text) = some (some members, rest)) :
    readValue size (fuel + 1) ('\x7b' :: '"' :: text) = some (.obj members, rest) := by
  rw [readValue_brace, h]

theorem readItems_comma {acc : List Json}
    (h : readValue size fuel text = some (item, ',' :: rest)) :
    readItems size (fuel + 1) acc text = readItems size fuel (item :: acc) rest := by
  rw [readItems, h]
  rfl

theorem readItems_close {acc : List Json} {item : Json}
    (h : readValue size fuel text = some (item, ']' :: rest)) :
    readItems size (fuel + 1) acc text = some ((item :: acc).reverse, rest) := by
  rw [readItems, h]
  rfl

variable {acc : List (String × Json)} {key : String} {value : Json} {after : List Char}

section Members

variable (hkey : stringRest? size true [] text = some (some key, ':' :: after))
include hkey

theorem readMembers_key :
    readMembers size (fuel + 1) true acc ('"' :: text) =
      match readValue size fuel after with
      | none => none
      | some (value, rest) =>
        match skipBlanks rest with
        | ',' :: rest => readMembers size fuel true ((key, value) :: acc) rest
        | '\x7d' :: rest => some (some ((key, value) :: acc).reverse, rest)
        | _ => none := by
  rw [readMembers, skipBlanks_cons (by decide)]
  split
  · next heq =>
    cases heq
    rw [hkey]
    rfl
  · simp_all

theorem readMembers_comma (h : readValue size fuel after = some (value, ',' :: rest)) :
    readMembers size (fuel + 1) true acc ('"' :: text) =
      readMembers size fuel true ((key, value) :: acc) rest := by
  rw [readMembers_key hkey, h]
  rfl

theorem readMembers_close (h : readValue size fuel after = some (value, '\x7d' :: rest)) :
    readMembers size (fuel + 1) true acc ('"' :: text) =
      some (some ((key, value) :: acc).reverse, rest) := by
  rw [readMembers_key hkey, h]
  rfl

end Members

end Steps

theorem ends_cons {c : Char} (h : c = ',' ∨ c = ']' ∨ c = '\x7d') (rest : List Char) :
    Ends (c :: rest) := by
  intro d hd
  cases hd
  exact h

theorem itemChars_starts (h : item.Plain) (items : List Json) :
    ∃ c rest, itemChars (item :: items) = c :: rest ∧ isBlank c = false ∧ c ≠ ']' := by
  obtain ⟨c, rest, hstart, hfacts⟩ := chars_starts h
  cases items with
  | nil => exact ⟨c, rest, by rw [itemChars_singleton, hstart], hfacts⟩
  | cons second items => exact ⟨c, _, by rw [itemChars_cons, hstart]; rfl, hfacts⟩

theorem memberChars_starts (value : Json) (members : List (String × Json)) :
    ∃ rest, memberChars ((key, value) :: members) = '"' :: rest := by
  cases members with
  | nil => exact ⟨_, memberChars_singleton key value⟩
  | cons second members => exact ⟨_, memberChars_cons key value second members⟩

mutual

/-- A plain tree is read back from its text, by induction on the tree. The text bounds the fuel:
each level and each item takes at least one character. -/
theorem readValue_chars {size fuel : Nat} {rest : List Char} (json : Json) (hplain : json.Plain)
    (hsize : (chars json).length ≤ size) (hfuel : (chars json).length ≤ fuel) (hrest : Ends rest) :
    readValue size fuel (chars json ++ rest) = some (json, rest) := by
  obtain ⟨fuel, rfl⟩ : ∃ less, fuel = less + 1 := by
    obtain ⟨c, more, hstart, -⟩ := chars_starts hplain
    rw [hstart, length_cons] at hfuel
    exact ⟨fuel - 1, by omega⟩
  cases json with
  | null =>
    rw [chars_null]
    rfl
  | bool value =>
    cases value with
    | true =>
      rw [chars_true]
      rfl
    | false =>
      rw [chars_false]
      rfl
  | int value => exact readValue_int hplain hrest
  | decimal text => exact absurd hplain id
  | garbled => exact absurd hplain id
  | str text =>
    rw [chars_str] at hsize ⊢
    simp only [cons_append, append_assoc, length_cons, length_append] at hsize ⊢
    exact readValue_str (stringRest?_text (by omega) rest)
  | arr items =>
    rw [chars_arr] at hsize hfuel ⊢
    simp only [cons_append, append_assoc, length_cons, length_append,
      length_nil, nil_append] at hsize hfuel ⊢
    cases items with
    | nil => rfl
    | cons item items =>
      have hitems := @readItems_chars size fuel rest [] item items hplain (by omega) (by omega)
      obtain ⟨c, more, hstart, hblank, hopen⟩ := itemChars_starts hplain.1 items
      rw [hstart] at hitems ⊢
      exact readValue_arr hblank hopen hitems
  | obj members =>
    rw [chars_obj] at hsize hfuel ⊢
    simp only [cons_append, append_assoc, length_cons, length_append,
      length_nil, nil_append] at hsize hfuel ⊢
    cases members with
    | nil => rfl
    | cons member members =>
      obtain ⟨key, value⟩ := member
      have hmembers := @readMembers_chars size fuel rest [] key value members hplain (by omega)
        (by omega)
      obtain ⟨more, hstart⟩ := memberChars_starts key value members
      rw [hstart] at hmembers ⊢
      exact readValue_obj hmembers

theorem readItems_chars {size fuel : Nat} {rest : List Char} (acc : List Json) (item : Json)
    (items : List Json) (hplain : PlainItems (item :: items))
    (hsize : (itemChars (item :: items)).length ≤ size)
    (hfuel : (itemChars (item :: items)).length < fuel) :
    readItems size fuel acc (itemChars (item :: items) ++ ']' :: rest) =
      some (acc.reverse ++ item :: items, rest) := by
  obtain ⟨fuel, rfl⟩ : ∃ less, fuel = less + 1 := ⟨fuel - 1, by omega⟩
  match items with
  | [] =>
    rw [itemChars_singleton] at hsize hfuel ⊢
    rw [readItems_close (readValue_chars item hplain.1 hsize (by omega) (ends_cons (by simp) _))]
    simp
  | second :: items =>
    rw [itemChars_cons] at hsize hfuel ⊢
    simp only [append_assoc, length_cons, length_append, cons_append] at hsize hfuel ⊢
    rw [readItems_comma
      (readValue_chars item hplain.1 (by omega) (by omega) (ends_cons (by simp) _)),
      readItems_chars (item :: acc) second items hplain.2 (by omega) (by omega)]
    simp

theorem readMembers_chars {size fuel : Nat} {rest : List Char} (acc : List (String × Json))
    (key : String) (value : Json) (members : List (String × Json))
    (hplain : PlainMembers ((key, value) :: members))
    (hsize : (memberChars ((key, value) :: members)).length ≤ size)
    (hfuel : (memberChars ((key, value) :: members)).length < fuel) :
    readMembers size fuel true acc (memberChars ((key, value) :: members) ++ '\x7d' :: rest) =
      some (some (acc.reverse ++ (key, value) :: members), rest) := by
  obtain ⟨fuel, rfl⟩ : ∃ less, fuel = less + 1 := ⟨fuel - 1, by omega⟩
  match members with
  | [] =>
    rw [memberChars_singleton] at hsize hfuel ⊢
    simp only [append_assoc, length_cons, length_append, cons_append] at hsize hfuel ⊢
    rw [readMembers_close (stringRest?_text (by omega) _)
      (readValue_chars value hplain.1 (by omega) (by omega) (ends_cons (by simp) _))]
    simp
  | (key', value') :: members =>
    rw [memberChars_cons] at hsize hfuel ⊢
    simp only [append_assoc, length_cons, length_append, cons_append] at hsize hfuel ⊢
    rw [readMembers_comma (stringRest?_text (by omega) _)
      (readValue_chars value hplain.1 (by omega) (by omega) (ends_cons (by simp) _)),
      readMembers_chars _ key' value' members hplain.2 (by omega) (by omega)]
    simp

end

mutual

theorem isSound_of_plain (json : Json) (h : json.Plain) : json.isSound = true := by
  match json with
  | .null | .bool _ | .int _ | .str _ => rfl
  | .decimal _ | .garbled => exact absurd h id
  | .arr items => exact areSound_of_plain items h
  | .obj members => exact areMembersSound_of_plain members h

theorem areSound_of_plain (items : List Json) (h : PlainItems items) : areSound items = true := by
  match items with
  | [] => rfl
  | item :: rest =>
    rw [areSound, isSound_of_plain item h.1, areSound_of_plain rest h.2]
    rfl

theorem areMembersSound_of_plain (members : List (String × Json)) (h : PlainMembers members) :
    areMembersSound members = true := by
  match members with
  | [] => rfl
  | (_, value) :: rest =>
    rw [areMembersSound, isSound_of_plain value h.1, areMembersSound_of_plain rest h.2]
    rfl

end

theorem scan?_render (h : json.Plain) : scan? (render json) = some json := by
  have hread : readValue ((chars json).length + 1) ((chars json).length + 1) (chars json ++ []) =
      some (json, []) :=
    readValue_chars json h (le_succ _) (le_succ _) (by intro c hc; cases hc)
  rw [append_nil] at hread
  rw [scan?, show (render json).toList = chars json from rfl, hread]
  rfl

theorem parse?_render (h : json.Plain) : parse? (render json) = some json := by
  rw [parse?, scan?_render h, filter_some, if_pos (isSound_of_plain json h)]

end TypedWasm.Json
