import Mathlib.Algebra.Order.Ring.Int
import TypedWasm.Lowering.Expr

/-!
# Formulas of numbers and truth values

Expressions without names: literals, arithmetic, comparisons and logic. How far a machine agrees
with the exact value of a formula depends on the range of its numbers and on how its division
rounds.
-/

namespace TypedWasm

open TypedWasm.Expr Int List Option

variable {value a b dividend divisor : Int} {e : Expr} {q : Quantity}

/-- The formulas of a type: every operator is applied to operands of its types, and every annotation
is right. -/
inductive Formula : Ty → Expr → Prop where
  | number (value : Int) : Formula .number (.literal .number (.num value))
  | truth (value : Bool) : Formula .bool (.literal .bool (.bool value))
  | neg {operand : Expr} (h : Formula .number operand) :
      Formula .number (.unary .number .neg operand)
  | not {operand : Expr} (h : Formula .bool operand) : Formula .bool (.unary .bool .not operand)
  | arithmetic {op : BinaryOp} {left right : Expr}
      (hop : op ∈ [BinaryOp.plus, .minus, .mul, .idiv, .mod])
      (hleft : Formula .number left) (hright : Formula .number right) :
      Formula .number (.binary .number op left right)
  | comparison {op : BinaryOp} {left right : Expr}
      (hop : op ∈ [BinaryOp.eq, .ne, .lt, .lte, .gt, .gte])
      (hleft : Formula .number left) (hright : Formula .number right) :
      Formula .bool (.binary .bool op left right)
  | equality {op : BinaryOp} {left right : Expr} (hop : op ∈ [BinaryOp.eq, .ne])
      (hleft : Formula .bool left) (hright : Formula .bool right) :
      Formula .bool (.binary .bool op left right)
  | logic {op : BinaryOp} {left right : Expr} (hop : op ∈ [BinaryOp.and, .or])
      (hleft : Formula .bool left) (hright : Formula .bool right) :
      Formula .bool (.binary .bool op left right)

theorem Formula.expr_ty {ty : Ty} (h : Formula ty e) : e.ty = ty := by
  cases h <;> rfl

inductive Quantity where
  | number (value : Int)
  | truth (value : Bool)
  deriving Repr, DecidableEq

def Quantity.ty : Quantity → Ty
  | .number _ => .number
  | .truth _ => .bool

/-- How quotients and remainders are rounded, and on which operands they are used. -/
structure Division where
  quotient : Int → Int → Int
  remainder : Int → Int → Int
  allows : Int → Int → Bool

variable {division : Division}

namespace Division

def truncating : Division := ⟨Int.tdiv, Int.tmod, fun _ divisor => divisor ≠ 0⟩

def flooring : Division := ⟨Int.fdiv, Int.fmod, fun _ divisor => divisor ≠ 0⟩

/-- Is used where there is nothing to round, or where the operands have the same sign. -/
def exact : Division :=
  ⟨Int.fdiv, Int.fmod, fun dividend divisor =>
    divisor ≠ 0 ∧ (dividend.fmod divisor = 0 ∨ 0 < dividend * divisor)⟩

def arithmetic (division : Division) (op : BinaryOp) (left right : Int) : Option Int :=
  match op with
  | .plus => some (left + right)
  | .minus => some (left - right)
  | .mul => some (left * right)
  | .idiv => if division.allows left right then some (division.quotient left right) else none
  | .mod => if division.allows left right then some (division.remainder left right) else none
  | _ => none

end Division

def comparison (op : BinaryOp) (left right : Int) : Option Bool :=
  match op with
  | .eq => some (left = right)
  | .ne => some (left ≠ right)
  | .lt => some (left < right)
  | .lte => some (left ≤ right)
  | .gt => some (left > right)
  | .gte => some (left ≥ right)
  | _ => none

/-- Comparisons of truth values. -/
def equality (op : BinaryOp) (left right : Bool) : Option Bool :=
  match op with
  | .eq => some (left = right)
  | .ne => some (left ≠ right)
  | _ => none

/-- The bytes of a big integer's block. -/
def numberBytes (value : Int) : Nat := 4 * (Lowering.bigintWords value).length

/-- The value of a formula, and the bytes of the big integers made on the way to it. -/
structure Evaluated where
  value : Quantity
  bytes : Nat
  deriving Repr, DecidableEq

namespace Evaluated

/-- A number that was made, if a word can hold it. -/
def made (value : Int) (before : Nat) : Option Evaluated :=
  if Word.fits value then some ⟨.number value, before + numberBytes value⟩ else none

/-- Unary operators. The negative of a big integer is its difference from a zero. -/
def unary : UnaryOp → Evaluated → Option Evaluated
  | .neg, ⟨.number value, bytes⟩ => made (-value) (numberBytes 0 + bytes)
  | .not, ⟨.truth value, bytes⟩ => some ⟨.truth !value, bytes⟩
  | _, _ => none

/-- Operators that use both operands. -/
def both (division : Division) (op : BinaryOp) : Evaluated → Evaluated → Option Evaluated
  | ⟨.number left, before⟩, ⟨.number right, bytes⟩ =>
    match division.arithmetic op left right with
    | some value => made value (before + bytes)
    | none => (comparison op left right).map fun holds => ⟨.truth holds, before + bytes⟩
  | ⟨.truth left, before⟩, ⟨.truth right, bytes⟩ =>
    (equality op left right).map fun holds => ⟨.truth holds, before + bytes⟩
  | _, _ => none

/-- Binary operators. A logical one makes what its right operand makes only if the left one leaves
the result open. -/
def binary (division : Division) (op : BinaryOp) (left right : Evaluated) : Option Evaluated :=
  match op, left.value with
  | .and, .truth false | .or, .truth true => some left
  | .and, .truth true | .or, .truth false => some ⟨right.value, left.bytes + right.bytes⟩
  | _, _ => both division op left right

end Evaluated

/-- The value of a formula, if every number in it fits in a word and every division is allowed. -/
def Expr.evaluate (division : Division) : Expr → Option Evaluated
  | .literal _ (.num value) => Evaluated.made value 0
  | .literal _ (.bool value) => some ⟨.truth value, 0⟩
  | .unary _ op operand => (operand.evaluate division).bind (Evaluated.unary op)
  | .binary _ op left right =>
    (left.evaluate division).bind fun found =>
      (right.evaluate division).bind (Evaluated.binary division op found)
  | _ => none

namespace Evaluated

variable {op : BinaryOp} {x left right : Evaluated} {bytes : Nat}

theorem made_eq_some_iff : made value bytes = some x ↔
      Word.fits value = true ∧ x = ⟨.number value, bytes + numberBytes value⟩ := by
  rw [made]
  by_cases h : Word.fits value = true
  · simp [h, eq_comm]
  · simp [h]

theorem binary_eq_both (hop : op ≠ .and ∧ op ≠ .or) (left right : Evaluated) :
    binary division op left right = both division op left right := by
  cases op <;> first | rfl | exact absurd rfl hop.1 | exact absurd rfl hop.2

theorem ne_logic_of_mem {ops : List BinaryOp} (hops : .and ∉ ops ∧ .or ∉ ops) (h : op ∈ ops) :
    op ≠ .and ∧ op ≠ .or :=
  ⟨fun he => hops.1 (he ▸ h), fun he => hops.2 (he ▸ h)⟩

theorem binary_logic (hop : op ∈ [BinaryOp.and, .or]) {holds : Bool}
    (hleft : left.value = .truth holds) (h : binary division op left right = some x) :
    (holds = decide (op = .or) ∧ x = left) ∨
      (holds = decide (op = .and) ∧ x = ⟨right.value, left.bytes + right.bytes⟩) := by
  simp only [mem_cons, not_mem_nil, or_false] at hop
  rcases hop with rfl | rfl <;> cases holds <;> simp only [binary, hleft, Option.some.injEq] at h
  · exact .inl ⟨by decide, h.symm⟩
  · exact .inr ⟨by decide, h.symm⟩
  · exact .inr ⟨by decide, h.symm⟩
  · exact .inl ⟨by decide, h.symm⟩

theorem binary_arithmetic (hop : op ∈ [BinaryOp.plus, .minus, .mul, .idiv, .mod])
    (hleft : left.value = .number a) (hright : right.value = .number b)
    (h : binary division op left right = some x) :
    ∃ value, division.arithmetic op a b = some value ∧ Word.fits value = true ∧
      x = ⟨.number value, left.bytes + right.bytes + numberBytes value⟩ := by
  rw [binary_eq_both (ne_logic_of_mem (by decide) hop)] at h
  obtain ⟨_, before⟩ := left
  obtain ⟨_, bytes⟩ := right
  subst hleft hright
  have hnone : comparison op a b = none := by
    simp only [mem_cons, not_mem_nil, or_false] at hop
    rcases hop with rfl | rfl | rfl | rfl | rfl <;> rfl
  simp only [both, hnone, map_none] at h
  split at h
  · next value hvalue =>
    obtain ⟨hfits, hx⟩ := made_eq_some_iff.1 h
    exact ⟨value, hvalue, hfits, hx⟩
  · cases h

theorem binary_comparison (hop : op ∈ [BinaryOp.eq, .ne, .lt, .lte, .gt, .gte])
    (hleft : left.value = .number a) (hright : right.value = .number b)
    (h : binary division op left right = some x) :
    ∃ holds, comparison op a b = some holds ∧ x = ⟨.truth holds, left.bytes + right.bytes⟩ := by
  rw [binary_eq_both (ne_logic_of_mem (by decide) hop)] at h
  obtain ⟨_, before⟩ := left
  obtain ⟨_, bytes⟩ := right
  subst hleft hright
  have hnone : division.arithmetic op a b = none := by
    simp only [mem_cons, not_mem_nil, or_false] at hop
    rcases hop with rfl | rfl | rfl | rfl | rfl | rfl <;> rfl
  simp only [both, hnone, map_eq_some_iff] at h
  obtain ⟨holds, hholds, rfl⟩ := h
  exact ⟨holds, hholds, rfl⟩

theorem binary_equality (hop : op ∈ [BinaryOp.eq, .ne]) {a b : Bool}
    (hleft : left.value = .truth a) (hright : right.value = .truth b)
    (h : binary division op left right = some x) :
    ∃ holds, equality op a b = some holds ∧ x = ⟨.truth holds, left.bytes + right.bytes⟩ := by
  rw [binary_eq_both (ne_logic_of_mem (by decide) hop)] at h
  obtain ⟨_, before⟩ := left
  obtain ⟨_, bytes⟩ := right
  subst hleft hright
  simp only [both, map_eq_some_iff] at h
  obtain ⟨holds, hholds, rfl⟩ := h
  exact ⟨holds, hholds, rfl⟩

end Evaluated

theorem Quantity.ty_eq_number (h : q.ty = .number) : ∃ value, q = .number value := by
  cases q with
  | number value => exact ⟨value, rfl⟩
  | truth => cases h

theorem Quantity.ty_eq_bool (h : q.ty = .bool) : ∃ value, q = .truth value := by
  cases q with
  | number => cases h
  | truth value => exact ⟨value, rfl⟩

section Formulas

variable {x : Evaluated} {ty : Ty} {op : BinaryOp} {left right operand : Expr}

theorem Expr.evaluate_unary {op : UnaryOp} (h : (unary ty op operand).evaluate division = some x) :
    ∃ found, operand.evaluate division = some found ∧ Evaluated.unary op found = some x := by
  rw [evaluate, bind_eq_some_iff] at h
  exact h

theorem Expr.evaluate_binary (h : (binary ty op left right).evaluate division = some x) :
    ∃ l r, left.evaluate division = some l ∧ right.evaluate division = some r ∧
      Evaluated.binary division op l r = some x := by
  simp only [evaluate, bind_eq_some_iff] at h
  obtain ⟨l, hl, r, hr, hx⟩ := h
  exact ⟨l, r, hl, hr, hx⟩

theorem Formula.value_ty (h : Formula ty e) (hx : e.evaluate division = some x) :
    x.value.ty = ty := by
  induction h generalizing x with
  | number value =>
    obtain ⟨-, rfl⟩ := Evaluated.made_eq_some_iff.1 hx
    rfl
  | truth value =>
    cases hx
    rfl
  | neg h ih =>
    obtain ⟨⟨value, bytes⟩, hfound, hx⟩ := evaluate_unary hx
    obtain ⟨n, rfl⟩ := Quantity.ty_eq_number (ih hfound)
    obtain ⟨-, rfl⟩ := Evaluated.made_eq_some_iff.1 hx
    rfl
  | not h ih =>
    obtain ⟨⟨value, bytes⟩, hfound, hx⟩ := evaluate_unary hx
    obtain ⟨b, rfl⟩ := Quantity.ty_eq_bool (ih hfound)
    cases hx
    rfl
  | arithmetic hop _ _ ihl ihr =>
    obtain ⟨l, r, hl, hr, hx⟩ := evaluate_binary hx
    obtain ⟨a, ha⟩ := Quantity.ty_eq_number (ihl hl)
    obtain ⟨b, hb⟩ := Quantity.ty_eq_number (ihr hr)
    obtain ⟨value, -, -, rfl⟩ := Evaluated.binary_arithmetic hop ha hb hx
    rfl
  | comparison hop _ _ ihl ihr =>
    obtain ⟨l, r, hl, hr, hx⟩ := evaluate_binary hx
    obtain ⟨a, ha⟩ := Quantity.ty_eq_number (ihl hl)
    obtain ⟨b, hb⟩ := Quantity.ty_eq_number (ihr hr)
    obtain ⟨holds, -, rfl⟩ := Evaluated.binary_comparison hop ha hb hx
    rfl
  | equality hop _ _ ihl ihr =>
    obtain ⟨l, r, hl, hr, hx⟩ := evaluate_binary hx
    obtain ⟨a, ha⟩ := Quantity.ty_eq_bool (ihl hl)
    obtain ⟨b, hb⟩ := Quantity.ty_eq_bool (ihr hr)
    obtain ⟨holds, -, rfl⟩ := Evaluated.binary_equality hop ha hb hx
    rfl
  | logic hop _ _ ihl ihr =>
    obtain ⟨l, r, hl, hr, hx⟩ := evaluate_binary hx
    obtain ⟨holds, hholds⟩ := Quantity.ty_eq_bool (ihl hl)
    rcases Evaluated.binary_logic hop hholds hx with ⟨-, rfl⟩ | ⟨-, rfl⟩
    · exact ihl hl
    · show r.value.ty = .bool
      exact ihr hr

end Formulas

theorem Formula.fits_of_evaluate (h : Formula .number e) {bytes : Nat}
    (hx : e.evaluate division = some ⟨.number value, bytes⟩) : Word.fits value = true := by
  cases h with
  | number =>
    obtain ⟨hfits, he⟩ := Evaluated.made_eq_some_iff.1 hx
    cases he
    exact hfits
  | neg h =>
    obtain ⟨⟨found, before⟩, hfound, hx⟩ := evaluate_unary hx
    obtain ⟨operand, rfl⟩ := Quantity.ty_eq_number (h.value_ty hfound)
    obtain ⟨hfits, he⟩ := Evaluated.made_eq_some_iff.1 hx
    cases he
    exact hfits
  | arithmetic hop hl hr =>
    obtain ⟨⟨_, _⟩, ⟨_, _⟩, hl', hr', hx⟩ := evaluate_binary hx
    obtain ⟨a, rfl⟩ := Quantity.ty_eq_number (hl.value_ty hl')
    obtain ⟨b, rfl⟩ := Quantity.ty_eq_number (hr.value_ty hr')
    obtain ⟨_, -, hfits, he⟩ := Evaluated.binary_arithmetic hop rfl rfl hx
    cases he
    exact hfits

theorem Expr.evaluate_idiv {left right : Expr} {leftBytes rightBytes : Nat}
    (hleft : left.evaluate division = some ⟨.number a, leftBytes⟩)
    (hright : right.evaluate division = some ⟨.number b, rightBytes⟩)
    (hallows : division.allows a b = true) (hfits : Word.fits (division.quotient a b) = true) :
    (binary .number .idiv left right).evaluate division = some ⟨.number (division.quotient a b),
        leftBytes + rightBytes + numberBytes (division.quotient a b)⟩ := by
  simp [evaluate, hleft, hright, Evaluated.binary, Evaluated.both, Division.arithmetic, hallows,
    Evaluated.made, hfits]

/-- A division that does the same on all operands another one is used on. -/
def Division.Extends (division wider : Division) : Prop :=
  ∀ dividend divisor, division.allows dividend divisor = true →
    wider.allows dividend divisor = true ∧
      wider.quotient dividend divisor = division.quotient dividend divisor ∧
      wider.remainder dividend divisor = division.remainder dividend divisor

section Rounding

variable {wider : Division} {op : BinaryOp} {x : Evaluated} {right left : Evaluated}

section

variable (h : division.Extends wider)
include h

theorem Division.Extends.arithmetic {left right : Int}
    (hvalue : division.arithmetic op left right = some value) :
    wider.arithmetic op left right = some value := by
  cases op with
  | idiv | mod =>
    simp only [Division.arithmetic, ite_none_right_eq_some, Option.some.injEq] at hvalue ⊢
    obtain ⟨hallows, rfl⟩ := hvalue
    obtain ⟨hwider, hquotient, hremainder⟩ := h left right hallows
    exact ⟨hwider, by assumption⟩
  | _ => exact hvalue

theorem Division.Extends.both (hx : Evaluated.both division op left right = some x) :
    Evaluated.both wider op left right = some x := by
  obtain ⟨a | a, before⟩ := left <;> obtain ⟨b | b, bytes⟩ := right
  · simp only [Evaluated.both] at hx ⊢
    cases hvalue : division.arithmetic op a b with
    | some value =>
      rw [hvalue] at hx
      rw [h.arithmetic hvalue]
      exact hx
    | none =>
      rw [hvalue] at hx
      cases op with
      | plus | minus | mul => cases hvalue
      | idiv | mod => cases hx
      | _ => exact hx
  · cases hx
  · cases hx
  · exact hx

theorem Division.Extends.binary (hx : Evaluated.binary division op left right = some x) :
    Evaluated.binary wider op left right = some x := by
  have hboth : Evaluated.both division op left right = some x →
      Evaluated.both wider op left right = some x := h.both
  obtain ⟨value, bytes⟩ := left
  cases op with
  | and | or =>
    cases value with
    | number => exact hboth hx
    | truth holds => cases holds <;> exact hx
  | _ => exact hboth hx

theorem Expr.evaluate_congr (hx : e.evaluate division = some x) : e.evaluate wider = some x := by
  fun_induction evaluate division e generalizing x with
  | case1 | case2 => exact hx
  | case3 ty op operand ih =>
    obtain ⟨found, hfound, hx⟩ := bind_eq_some_iff.1 hx
    rw [evaluate, ih hfound]
    exact hx
  | case4 ty op left right ihl ihr =>
    obtain ⟨l, hl, hx⟩ := bind_eq_some_iff.1 hx
    obtain ⟨r, hr, hx⟩ := bind_eq_some_iff.1 hx
    rw [evaluate, ihl hl, ihr hr]
    exact h.binary hx
  | case5 => cases hx

end

theorem Division.exact_extends_flooring : Division.exact.Extends .flooring := by
  intro dividend divisor hallows
  simp only [Division.exact, decide_eq_true_eq] at hallows
  exact ⟨by simpa [Division.flooring] using hallows.1, rfl, rfl⟩

theorem Division.tdiv_eq_fdiv_of_exact (h : dividend.fmod divisor = 0 ∨ 0 < dividend * divisor) :
    dividend.tdiv divisor = dividend.fdiv divisor := by
  rw [tdiv_eq_fdiv]
  rcases h with hrest | hsigns
  · rw [if_pos (dvd_of_fmod_eq_zero hrest), Int.add_zero]
  · by_cases hdvd : divisor ∣ dividend
    · rw [if_pos hdvd, Int.add_zero]
    · rw [if_neg hdvd]
      rcases pos_and_pos_or_neg_and_neg_of_mul_pos hsigns with ⟨ha, hb⟩ | ⟨ha, hb⟩
      · rw [if_pos (by omega), if_pos (by omega), Int.add_zero]
      · rw [if_neg (by omega), if_neg (by omega), sign_eq_neg_one_of_neg hb]
        omega

theorem Division.exact_extends_truncating : Division.exact.Extends .truncating := by
  intro dividend divisor hallows
  simp only [Division.exact, decide_eq_true_eq] at hallows
  have hquotient := Division.tdiv_eq_fdiv_of_exact hallows.2
  refine ⟨by simpa [Division.truncating] using hallows.1, hquotient, ?_⟩
  show dividend.tmod divisor = dividend.fmod divisor
  rw [tmod_def, fmod_def, hquotient]

/-- Where there is something to round and the signs differ, truncating is one above flooring. -/
theorem Division.tdiv_eq_fdiv_add_one (hsigns : dividend * divisor < 0)
    (hrest : dividend.fmod divisor ≠ 0) : dividend.tdiv divisor = dividend.fdiv divisor + 1 := by
  have hdvd : ¬ divisor ∣ dividend := fun hdvd => hrest (fmod_eq_zero_of_dvd hdvd)
  rw [tdiv_eq_fdiv, if_neg hdvd]
  rcases mul_neg_iff.1 hsigns with ⟨ha, hb⟩ | ⟨ha, hb⟩
  · rw [if_pos (by omega), if_neg (by omega)]
  · rw [if_neg (by omega), if_pos (by omega), sign_eq_one_of_pos hb]

/-- Both quotients fit in a word if the operands do and there is something to round. -/
theorem Division.fits_quotients (hdividend : Word.fits dividend = true)
    (hsigns : dividend * divisor < 0) (hrest : dividend.fmod divisor ≠ 0) :
    Word.fits (dividend.tdiv divisor) = true ∧ Word.fits (dividend.fdiv divisor) = true := by
  have hdvd : ¬ divisor ∣ dividend := fun hdvd => hrest (fmod_eq_zero_of_dvd hdvd)
  have hsize : 2 ≤ divisor.natAbs := by
    by_contra hsmall
    have hcases : divisor = 0 ∨ divisor = 1 ∨ divisor = -1 := by omega
    rcases hcases with rfl | rfl | rfl
    · simp at hsigns
    · exact hdvd (Int.one_dvd _)
    · exact hdvd (Int.neg_dvd.2 (Int.one_dvd _))
  have hquotient : (dividend.tdiv divisor).natAbs ≤ dividend.natAbs / 2 := by
    rw [natAbs_tdiv]
    exact Nat.div_le_div_left hsize (by decide)
  have hdiffers := Division.tdiv_eq_fdiv_add_one hsigns hrest
  simp only [Word.fits, Bool.and_eq_true, decide_eq_true_eq] at hdividend ⊢
  omega

end Rounding

end TypedWasm
