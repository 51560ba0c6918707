import Mathlib.Data.List.Basic
import TypedWasm.Proofs.Discipline
import TypedWasm.Proofs.Names
import TypedWasm.Text.Wat

/-!
# Listings can be read back from their text

Two listings with one text are equal, as long as the names in them keep to a line and those of
functions are not taken for helpers or intrinsics.
-/

namespace TypedWasm

open InstrOf List Nat

theorem InstrOf.mem_preorder {ι κ : Type} (i : InstrOf ι κ) : i ∈ i.preorder := by
  cases i <;> simp [preorder]

theorem isDigit_of_mem_toString {c : Char} {n : Nat} (h : c ∈ (toString n).toList) :
    c.isDigit = true := by
  rw [toString_eq_repr, toList_repr] at h
  exact isDigit_of_mem_toDigits (by decide) (by decide) h

theorem toString_int_injective {i j : Int} (h : toString i = toString j) : i = j := by
  have hsign : ∀ m n : Nat, toString m ≠ "-" ++ toString n := by
    intro m n he
    have hmem : '-' ∈ (toString m).toList := by simp [he]
    exact absurd (isDigit_of_mem_toString hmem) (by decide)
  cases i <;> cases j
  · exact congrArg Int.ofNat (toString_nat_injective h)
  · exact absurd h (hsign _ _)
  · exact absurd h.symm (hsign _ _)
  · have hnat := toString_nat_injective ((String.append_right_inj "-").1 h)
    rw [Nat.succ.inj hnat]

namespace Wat

variable {module : String} {depth : Nat} {i j : Instr}

theorem toList_unlines (lines : List String) :
    (unlines lines).toList = lines.flatMap fun line => line.toList ++ ['\n'] := by
  have hfold : ∀ text : String,
      (lines.foldl (fun text line => (text ++ line).push '\n') text).toList =
        text.toList ++ lines.flatMap fun line => line.toList ++ ['\n'] := by
    induction lines with
    | nil => simp
    | cons line rest ih => simp [ih]
  exact (hfold "").trans (nil_append _)

/-- The part of a text before the first mark. -/
theorem takeWhile_front {mark : Char} {front back : List Char} (hfront : mark ∉ front)
    (hback : ∀ c ∈ back.head?, c = mark) : (front ++ back).takeWhile (· ≠ mark) = front := by
  have hplain : ∀ c ∈ front, decide (c ≠ mark) = true := by
    intro c hc
    rw [decide_eq_true_eq]
    rintro rfl
    exact hfront hc
  rw [takeWhile_append_of_pos hplain]
  cases back with
  | nil => simp
  | cons c back => simp [hback c rfl]

theorem unlines_inj {lines lines' : List String} (h : ∀ line ∈ lines, '\n' ∉ line.toList)
    (h' : ∀ line ∈ lines', '\n' ∉ line.toList) (he : unlines lines = unlines lines') :
    lines = lines' := by
  have hcut : ∀ (line : String) rest, '\n' ∉ line.toList →
      (line.toList ++ '\n' :: rest).takeWhile (· ≠ '\n') = line.toList :=
    fun _ _ hline => takeWhile_front hline (by simp)
  rw [← String.toList_inj, toList_unlines, toList_unlines] at he
  induction lines generalizing lines' with
  | nil =>
    cases lines' with
    | nil => rfl
    | cons => simp at he
  | cons line rest ih =>
    cases lines' with
    | nil => simp at he
    | cons line' rest' =>
      simp only [flatMap_cons, append_assoc, singleton_append] at he
      rw [forall_mem_cons] at h h'
      obtain rfl : line = line' := by
        rw [← String.toList_inj, ← hcut line _ h.1, he, hcut line' _ h'.1]
      rw [ih h.2 h'.2 (List.cons.inj (append_cancel_left he)).2]

def keyword : Instr → String
  | .const _ => "i32.const"
  | .localGet _ => "local.get"
  | .localSet _ => "local.set"
  | .localTee _ => "local.tee"
  | .load _ => "i32.load"
  | .store _ => "i32.store"
  | .numeric op => mnemonic op
  | .eqz => "i32.eqz"
  | .memorySize => "memory.size"
  | .memoryGrow => "memory.grow"
  | .call _ => "call"
  | .drop => "drop"
  | .ret => "return"
  | .unreachable => "unreachable"
  | .nop => "nop"
  | .br _ => "br"
  | .brIf _ => "br_if"
  | .block _ => "block"
  | .loop _ => "loop"
  | .cond .. => "if"

/-- What follows the keyword, with the blank between them. -/
def operand (module : String) : Instr → String
  | .const value => " " ++ toString value.toInt
  | .localGet name | .localSet name | .localTee name => " " ++ ident name
  | .load offset | .store offset =>
    if offset = 0 then "" else " " ++ ("offset=" ++ toString offset.toNat)
  | .call callee => " " ++ calleeId module callee
  | .br label | .brIf label => " " ++ toString label.toNat
  | .cond true .. => " " ++ "(result i32)"
  | _ => ""

def opening (module : String) (i : Instr) : String := keyword i ++ operand module i

/-- The lines after the first. -/
def inner (module : String) (depth : Nat) : Instr → List String
  | .block body | .loop body => bodyLines module (depth + 1) body ++ [indent depth ++ "end"]
  | .cond _ thenBody elseBody =>
    bodyLines module (depth + 1) thenBody ++
    (if elseBody.isEmpty then []
      else [indent depth ++ "else"] ++ bodyLines module (depth + 1) elseBody) ++
    [indent depth ++ "end"]
  | _ => []

theorem instrLines_eq (i : Instr) :
    instrLines module depth i = (indent depth ++ opening module i) :: inner module depth i := by
  cases i with
  | load offset | store offset =>
    by_cases hoffset : offset = 0 <;>
      simp [instrLines, opening, keyword, operand, inner, withOffset, hoffset,
        ← String.append_assoc]
  | cond yields thenBody elseBody =>
    cases yields <;> simp [instrLines, opening, keyword, operand, inner]
  | _ => simp [instrLines, opening, keyword, operand, inner, ← String.append_assoc]

theorem keyword_plain (i : Instr) : ' ' ∉ (keyword i).toList ∧ '\n' ∉ (keyword i).toList := by
  cases i with
  | numeric op => cases op <;> decide
  | _ =>
    rw [keyword]
    decide

theorem operand_eq (module : String) (i : Instr) :
    operand module i = "" ∨ ∃ text, operand module i = " " ++ text := by
  cases i with
  | load offset | store offset =>
    rw [operand]
    split
    · exact .inl rfl
    · exact .inr ⟨_, rfl⟩
  | cond yields thenBody elseBody =>
    cases yields
    · exact .inl rfl
    · exact .inr ⟨_, rfl⟩
  | const | localGet | localSet | localTee | call | br | brIf => exact .inr ⟨_, rfl⟩
  | _ => exact .inl rfl

theorem opening_inj (h : opening module i = opening module j) :
    keyword i = keyword j ∧ operand module i = operand module j := by
  have hkeyword : ∀ k, (opening module k).toList.takeWhile (· ≠ ' ') = (keyword k).toList := by
    intro k
    rw [opening, String.toList_append]
    refine takeWhile_front (keyword_plain k).1 ?_
    rcases operand_eq module k with he | ⟨text, he⟩ <;> simp [he]
  have hsame : keyword i = keyword j := by
    rw [← String.toList_inj, ← hkeyword i, h, hkeyword]
  refine ⟨hsame, ?_⟩
  rw [opening, opening, hsame] at h
  exact (String.append_right_inj _).1 h

/-- An instruction whose names keep to one line, and whose callee is not taken for a helper or an
intrinsic if it is none. -/
def Legible : Instr → Prop
  | .localGet name | .localSet name | .localTee name => '\n' ∉ name.toList
  | .call (.user name) => '\n' ∉ name.toList ∧ name.toList.head? ≠ some '$' ∧ '.' ∉ name.toList
  | _ => True

def bareName (module : String) : Callee → String
  | .user name => name
  | .helper helper => helper.name
  | .intrinsic intrinsic => module ++ ("." ++ intrinsic.importName)

theorem calleeId_eq (callee : Callee) : calleeId module callee = "$" ++ bareName module callee := by
  cases callee <;> simp [calleeId, bareName, ident, intrinsicId, String.append_assoc]

/-- The kind of a callee: one of a unit, a helper or an intrinsic. -/
def kind : Callee → Nat
  | .user _ => 0
  | .helper _ => 1
  | .intrinsic _ => 2

/-- The kind a name shows: intrinsics have a point in it, and helpers start with a dollar sign. -/
def kindOfName (name : String) : Nat :=
  if '.' ∈ name.toList then 2 else if name.toList.head? = some '$' then 1 else 0

theorem kindOfName_bareName {callee : Callee} (h : Legible (.call callee)) :
    kindOfName (bareName module callee) = kind callee := by
  cases callee with
  | user name => simp [kindOfName, bareName, kind, h.2.1, h.2.2]
  | helper helper =>
    rw [bareName]
    cases helper <;> decide
  | intrinsic intrinsic => simp [kindOfName, bareName, kind]

theorem calleeId_inj {callee callee' : Callee} (h : Legible (.call callee))
    (h' : Legible (.call callee')) (he : calleeId module callee = calleeId module callee') :
    callee = callee' := by
  rw [calleeId_eq, calleeId_eq, String.append_right_inj] at he
  have hkind : kind callee = kind callee' := by
    rw [← kindOfName_bareName h, he, kindOfName_bareName h']
  cases callee <;> cases callee' <;> simp [kind] at hkind
  · exact congrArg Callee.user he
  · next helper helper' =>
    cases helper <;> cases helper' <;> first | rfl | simp [bareName, Helper.name] at he
  · next intrinsic intrinsic' =>
    rw [bareName, bareName, String.append_right_inj, String.append_right_inj] at he
    cases intrinsic <;> cases intrinsic' <;> first | rfl | simp [Intrinsic.importName] at he

/-- What the first line of an instruction says about it: all but what is inside. -/
inductive Alike : Instr → Instr → Prop
  | same (i : Instr) : Alike i i
  | block (body body' : Code) : Alike (.block body) (.block body')
  | loop (body body' : Code) : Alike (.loop body) (.loop body')
  | cond (yields : Bool) (thenBody thenBody' elseBody elseBody' : Code) :
      Alike (.cond yields thenBody elseBody) (.cond yields thenBody' elseBody')

def numeric? : Instr → Option NumericOp
  | .numeric op => some op
  | _ => none

def ofMnemonic? (text : String) : Option NumericOp :=
  [NumericOp.add, .sub, .mul, .divS, .remS, .eq, .ne, .ltS, .gtS, .gtU, .leS, .geS, .and, .or,
    .shrU].find? (mnemonic · == text)

theorem ofMnemonic?_keyword (i : Instr) : ofMnemonic? (keyword i) = numeric? i := by
  cases i with
  | numeric op => cases op <;> rfl
  | _ => rfl

theorem offset_inj {offset offset' : UInt32}
    (h : operand module (.load offset) = operand module (.load offset')) : offset = offset' := by
  rw [operand, operand] at h
  split at h <;> split at h
  · simp_all
  · simp at h
  · simp at h
  · rw [String.append_right_inj, String.append_right_inj] at h
    exact UInt32.toNat_inj.1 (toString_nat_injective h)

theorem alike_of_opening (hi : Legible i) (hj : Legible j)
    (h : opening module i = opening module j) : Alike i j := by
  obtain ⟨hkeyword, hoperand⟩ := opening_inj h
  have hnumeric : numeric? i = numeric? j := by
    rw [← ofMnemonic?_keyword, hkeyword, ofMnemonic?_keyword]
  -- Off the diagonal the keywords differ, and without operands there is nothing more to compare.
  cases i <;> cases j <;> first
    | exact Alike.same _
    | exact Alike.block _ _
    | exact Alike.loop _ _
    | (simp only [numeric?, reduceCtorEq] at hnumeric; done)
    | (simp [keyword] at hkeyword; done)
    | skip
  case const.const value value' =>
    rw [Int32.toInt_inj.1 (toString_int_injective ((String.append_right_inj _).1 hoperand))]
    exact .same _
  case numeric.numeric op op' =>
    rw [Option.some.inj hnumeric]
    exact .same _
  case load.load offset offset' =>
    rw [offset_inj hoperand]
    exact .same _
  case store.store offset offset' =>
    rw [@offset_inj module offset offset' hoperand]
    exact .same _
  case call.call callee callee' =>
    rw [calleeId_inj hi hj ((String.append_right_inj _).1 hoperand)]
    exact .same _
  case cond.cond yields thenBody elseBody yields' thenBody' elseBody' =>
    obtain rfl : yields = yields' := by
      cases yields <;> cases yields' <;> first | rfl | simp [operand] at hoperand
    exact .cond _ _ _ _ _
  case br.br label label' | brIf.brIf label label' =>
    rw [UInt32.toNat_inj.1 (toString_nat_injective ((String.append_right_inj _).1 hoperand))]
    exact .same _
  all_goals
    -- What is left are the instructions that name a local.
    rw [(String.append_right_inj _).1 ((String.append_right_inj _).1 hoperand)]
    exact .same _

/-- Whether lines do not go on with an instruction at a depth. -/
def Closed (module : String) (depth : Nat) (lines : List String) : Prop :=
  ∀ i, lines.head? ≠ some (indent depth ++ opening module i)

theorem indent_succ : indent (depth + 1) = indent depth ++ "  " := by
  simp [indent, replicate_succ']

theorem closed_end {text : String} (htext : text.toList.head? = some 'e') (lines : List String) :
    Closed module (depth + 1) ((indent depth ++ text) :: lines) := by
  intro i he
  rw [indent_succ, head?_cons, Option.some.injEq, String.append_assoc, String.append_right_inj]
    at he
  rw [he] at htext
  simp at htext

/-- The lines of a conditional from its else branch on. -/
def elseLines (module : String) (depth : Nat) (elseBody : Code) (rest : List String) :
    List String :=
  match elseBody with
  | [] => (indent depth ++ "end") :: rest
  | elseBody => (indent depth ++ "else") ::
      (bodyLines module (depth + 1) elseBody ++ (indent depth ++ "end") :: rest)

theorem inner_cond (yields : Bool) (thenBody elseBody : Code) (rest : List String) :
    inner module depth (.cond yields thenBody elseBody) ++ rest =
      bodyLines module (depth + 1) thenBody ++ elseLines module depth elseBody rest := by
  cases elseBody <;> simp [inner, elseLines]

theorem elseLines_closed (elseBody : Code) (rest : List String) :
    Closed module (depth + 1) (elseLines module depth elseBody rest) := by
  cases elseBody <;> exact closed_end rfl _

theorem bodyLines_cons (i : Instr) (code : Code) (rest : List String) :
    bodyLines module depth (i :: code) ++ rest = (indent depth ++ opening module i) ::
      (inner module depth i ++ (bodyLines module depth code ++ rest)) := by
  rw [bodyLines, instrLines_eq, append_assoc, cons_append]

/-- What is inside an instruction and what follows it are read back from its lines. -/
theorem bodyLines_append_inj : (code : Code) → ∀ {depth : Nat} {code' : Code}
    {rest rest' : List String}, (∀ k ∈ allPreorder code, Legible k) →
    (∀ k ∈ allPreorder code', Legible k) → Closed module depth rest →
    Closed module depth rest' →
    bodyLines module depth code ++ rest = bodyLines module depth code' ++ rest' →
    code = code' ∧ rest = rest'
  | [], depth, [], rest, rest', _, _, _, _, he => ⟨rfl, he⟩
  | [], depth, j :: code', rest, rest', _, _, hrest, _, he => by
    rw [bodyLines_cons] at he
    exact absurd (congrArg List.head? he) (hrest j)
  | i :: code, depth, [], rest, rest', _, _, _, hrest', he => by
    rw [bodyLines_cons] at he
    exact absurd (congrArg List.head? he).symm (hrest' i)
  | i :: code, depth, j :: code', rest, rest', hcode, hcode', hrest, hrest', he => by
    simp only [allPreorder, forall_mem_append] at hcode hcode'
    rw [bodyLines_cons, bodyLines_cons] at he
    obtain ⟨hline, hlater⟩ := List.cons.inj he
    have halike := alike_of_opening (hcode.1 i i.mem_preorder) (hcode'.1 j j.mem_preorder)
      ((String.append_right_inj _).1 hline)
    obtain ⟨rfl, hafter⟩ : i = j ∧ bodyLines module depth code ++ rest =
        bodyLines module depth code' ++ rest' := by
      cases halike with
      | same => exact ⟨rfl, append_cancel_left hlater⟩
      | block body body' | loop body body' =>
        simp only [preorder, forall_mem_cons] at hcode hcode'
        rw [inner, inner, append_assoc, append_assoc] at hlater
        obtain ⟨rfl, hends⟩ := bodyLines_append_inj body hcode.1.2 hcode'.1.2 (closed_end rfl _)
          (closed_end rfl _) hlater
        exact ⟨rfl, (List.cons.inj hends).2⟩
      | cond yields thenBody thenBody' elseBody elseBody' =>
        simp only [preorder, forall_mem_cons, forall_mem_append] at hcode hcode'
        rw [inner_cond, inner_cond] at hlater
        obtain ⟨rfl, helse⟩ := bodyLines_append_inj thenBody hcode.1.2.1 hcode'.1.2.1
          (elseLines_closed _ _) (elseLines_closed _ _) hlater
        cases elseBody with
        | nil =>
          cases elseBody' with
          | nil => exact ⟨rfl, (List.cons.inj helse).2⟩
          | cons => exact absurd (List.cons.inj helse).1 (by simp)
        | cons k elseBody =>
          cases elseBody' with
          | nil => exact absurd (List.cons.inj helse).1 (by simp)
          | cons k' elseBody' =>
            obtain ⟨hsame, hends⟩ := bodyLines_append_inj (k :: elseBody) hcode.1.2.2 hcode'.1.2.2
              (closed_end rfl _) (closed_end rfl _) (List.cons.inj helse).2
            exact ⟨by rw [hsame], (List.cons.inj hends).2⟩
    obtain ⟨rfl, hends⟩ := bodyLines_append_inj code hcode.2 hcode'.2 hrest hrest' hafter
    exact ⟨rfl, hends⟩

theorem newline_opening (hmodule : '\n' ∉ module.toList) (h : Legible i) :
    '\n' ∉ (opening module i).toList := by
  have hnat : ∀ n : Nat, '\n' ∉ (toString n).toList := fun n hmem =>
    absurd (isDigit_of_mem_toString hmem) (by decide)
  have hint : ∀ n : Int, '\n' ∉ (toString n).toList := by
    rintro (n | n)
    · exact hnat n
    · show '\n' ∉ ("-" ++ toString (n + 1)).toList
      simpa using hnat (n + 1)
  rw [opening, String.toList_append, mem_append, not_or]
  refine ⟨(keyword_plain i).2, ?_⟩
  cases i with
  | const value => simpa [operand] using hint value.toInt
  | localGet name | localSet name | localTee name => simpa [operand, ident, Legible] using h
  | load offset | store offset =>
    rw [operand]
    split
    · simp
    · simpa using hnat offset.toNat
  | br label | brIf label => simpa [operand] using hnat label.toNat
  | call callee =>
    cases callee with
    | user name => simpa [operand, calleeId, ident] using h.1
    | helper helper =>
      rw [operand, calleeId]
      cases helper <;> decide
    | intrinsic intrinsic =>
      have himport : '\n' ∉ intrinsic.importName.toList := by cases intrinsic <;> decide
      simp [operand, calleeId, intrinsicId, hmodule, himport]
  | cond yields thenBody elseBody => cases yields <;> simp [operand]
  | _ => simp [operand]

theorem newline_indent {text : String} (h : '\n' ∉ text.toList) :
    '\n' ∉ (indent depth ++ text).toList := by
  have hindent : '\n' ∉ (indent depth).toList := by
    induction depth with
    | zero => decide
    | succ depth ih => simpa [indent_succ] using ih
  simp [hindent, h]

theorem newline_bodyLines (hmodule : '\n' ∉ module.toList) : (code : Code) →
    (depth : Nat) → (∀ k ∈ allPreorder code, Legible k) →
    ∀ line ∈ bodyLines module depth code, '\n' ∉ line.toList
  | [], _, _ => forall_mem_nil _
  | i :: code, depth, hcode => by
    simp only [allPreorder, forall_mem_append] at hcode
    have hend : '\n' ∉ (indent depth ++ "end").toList := newline_indent (by decide)
    rw [bodyLines, instrLines_eq, cons_append, forall_mem_cons, forall_mem_append]
    refine ⟨newline_indent (newline_opening hmodule (hcode.1 i i.mem_preorder)), ?_,
      newline_bodyLines hmodule code depth hcode.2⟩
    cases i with
    | block body | loop body =>
      simp only [preorder, forall_mem_cons] at hcode
      rw [inner, forall_mem_append, forall_mem_singleton]
      exact ⟨newline_bodyLines hmodule body _ hcode.1.2, hend⟩
    | cond yields thenBody elseBody =>
      simp only [preorder, forall_mem_cons, forall_mem_append] at hcode
      rw [inner, forall_mem_append, forall_mem_append, forall_mem_singleton]
      refine ⟨⟨newline_bodyLines hmodule thenBody _ hcode.1.2.1, ?_⟩, hend⟩
      split
      · exact forall_mem_nil _
      · rw [singleton_append, forall_mem_cons]
        exact ⟨newline_indent (by decide), newline_bodyLines hmodule elseBody _ hcode.1.2.2⟩
    | _ => exact forall_mem_nil _

end Wat

open Wat in
/-- **The text of a listing is unambiguous.** Listings with one text are equal, if the names in them
keep to a line and the names of functions neither start with a dollar sign nor have a point in
them. -/
theorem listing_text_unambiguous {module : String} (hmodule : '\n' ∉ module.toList)
    {code code' : Code} (hcode : ∀ i ∈ allPreorder code, Legible i)
    (hcode' : ∀ i ∈ allPreorder code', Legible i) {depth : Nat}
    (h : bodyText module depth code = bodyText module depth code') : code = code' := by
  have hlines := unlines_inj (newline_bodyLines hmodule code depth hcode)
    (newline_bodyLines hmodule code' depth hcode') h
  have hclosed : Closed module depth [] := fun _ => nofun
  rw [← append_nil (bodyLines module depth code), ← append_nil (bodyLines module depth code')]
    at hlines
  exact (bodyLines_append_inj code hcode hcode' hclosed hclosed hlines).1

namespace Wat

/-- Conditionals in a loop, of which one has an empty branch. -/
def nested : Code :=
  [.loop [.localGet "x", .cond true [.load 4, .call (.user "f")] [.call (.helper .strEq)],
    .cond false [.br 1] []], .call (.intrinsic .abs)]

theorem nested_legible : ∀ i ∈ allPreorder nested, Legible i := by
  simp [nested, allPreorder, preorder, Legible]

theorem nested_unambiguous :
    [.loop [.localGet "x", Instr.choose [.load 4, Instr.callUser "f"] [Instr.callHelper .strEq],
      Instr.when [.br 1]], Instr.callIntrinsic .abs] = nested :=
  listing_text_unambiguous (by decide) nested_legible nested_legible
    (@rfl _ (bodyText "host" 1 nested))

end Wat

end TypedWasm
