import TypedWasm.Machine.Exec
import TypedWasm.Proofs.Scalar.Interpreter

/-!
# Machine arithmetic read as integer arithmetic

Every instruction and intrinsic that scalar programs use computes on words what the interpreter
computes on the integers they stand for.
-/

namespace TypedWasm.Scalar

open Lowering

variable (word : Word) {right left : Word}

@[simp] theorem ofInt_toInt : Word.ofInt word.toInt = word := Int32.ofInt_toInt word

theorem toInt_eq_zero_iff {word : Word} : word.toInt = 0 ↔ word = 0 := by
  rw [← Int32.toInt_inj]
  rfl

theorem fits_toInt : Word.fits word.toInt = true := by
  have hlow := word.le_toInt
  have hhigh : word.toInt ≤ 2147483647 := word.toInt_le
  simp only [Word.fits, Bool.and_eq_true, decide_eq_true_eq]
  omega

theorem not_fits_iff_of_div :
    Word.fits (left.toInt.tdiv right.toInt) = false ↔ left = -2147483648 ∧ right = -1 := by
  constructor
  · intro h
    by_contra hne
    -- Away from the one pair of operands, the quotient is the reading of a word.
    have hquotient : (left / right).toInt = left.toInt.tdiv right.toInt := by
      rcases not_and_or.1 hne with hleft | hright
      · exact Int32.toInt_div_of_ne_left _ _ hleft
      · exact Int32.toInt_div_of_ne_right _ _ hright
    rw [← hquotient, fits_toInt] at h
    cases h
  · rintro ⟨rfl, rfl⟩
    decide

theorem ofInt_tdiv (h : ¬ (left = -2147483648 ∧ right = -1)) :
    Word.ofInt (left.toInt.tdiv right.toInt) = left / right := by
  rcases not_and_or.1 h with hleft | hright
  · rw [← Int32.toInt_div_of_ne_left _ _ hleft, ofInt_toInt]
  · rw [← Int32.toInt_div_of_ne_right _ _ hright, ofInt_toInt]

theorem numeric_divS (left right : Word) :
    Exec.numeric .divS left right = operate .idiv left.toInt right.toInt := by
  simp only [Exec.numeric, operate, toInt_eq_zero_iff]
  by_cases hzero : right = 0
  · rw [if_pos hzero, if_pos hzero]
  · rw [if_neg hzero, if_neg hzero]
    by_cases hpair : left = -2147483648 ∧ right = -1
    · rw [if_pos hpair, not_fits_iff_of_div.2 hpair]
      rfl
    · have hfits : Word.fits (left.toInt.tdiv right.toInt) = true := by
        rw [← Bool.not_eq_false, not_fits_iff_of_div]
        exact hpair
      rw [if_neg hpair, if_pos hfits, ofInt_tdiv hpair]

/-- **Operators.** An instruction traps where the operator does, and otherwise gives its value. -/
theorem numeric_nativeOp {op : BinaryOp} (hand : op ≠ .and) (hor : op ≠ .or) (left right : Word) :
    Exec.numeric (nativeOp op) left right = operate op left.toInt right.toInt := by
  cases op with
  | and => exact absurd rfl hand
  | or => exact absurd rfl hor
  | idiv => exact numeric_divS left right
  | plus | minus | mul => simp [Exec.numeric, nativeOp, operate, Word.ofInt]
  | mod =>
    simp only [Exec.numeric, nativeOp, operate, toInt_eq_zero_iff]
    rw [← Int32.toInt_mod, ofInt_toInt]
  | eq | is | ne => simp only [Exec.numeric, nativeOp, operate, ne_eq, Int32.toInt_inj]
  | lt | gt => simp only [Exec.numeric, nativeOp, operate, gt_iff_lt, Int32.lt_iff_toInt_lt]
  | lte | gte => simp only [Exec.numeric, nativeOp, operate, ge_iff_le, Int32.le_iff_toInt_le]

theorem sub_eq_neg : 0 - word = operateUnary .neg word := by
  simp [operateUnary, Word.ofInt]

theorem eqz_eq_not : Word.ofBool (word = 0) = operateUnary .not word := by
  simp only [operateUnary, toInt_eq_zero_iff]

theorem powerBits_eq (bits : Nat) (base acc : Int) {exponent : Nat} (h : exponent < 2 ^ bits) :
    Word.powerBits bits (Word.ofInt base) exponent (Word.ofInt acc) =
      Word.ofInt (acc * base ^ exponent) := by
  induction bits generalizing base acc exponent with
  | zero =>
    obtain rfl : exponent = 0 := by omega
    simp [Word.powerBits]
  | succ bits ih =>
    have hhalf : exponent / 2 < 2 ^ bits := by omega
    have hsquare : Word.ofInt base * Word.ofInt base = Word.ofInt (base * base) :=
      (Int32.ofInt_mul base base).symm
    rw [Word.powerBits, hsquare]
    by_cases hodd : exponent % 2 = 1
    · have hstep : Word.ofInt acc * Word.ofInt base = Word.ofInt (acc * base) :=
        (Int32.ofInt_mul acc base).symm
      rw [if_pos hodd, hstep, ih _ _ hhalf]
      congr 1
      calc acc * base * (base * base) ^ (exponent / 2)
          = acc * base ^ (2 * (exponent / 2) + 1) := by rw [← pow_two, ← pow_mul]; ring
        _ = acc * base ^ exponent := by rw [show 2 * (exponent / 2) + 1 = exponent by omega]
    · rw [if_neg hodd, ih _ _ hhalf]
      congr 1
      calc acc * (base * base) ^ (exponent / 2)
          = acc * base ^ (2 * (exponent / 2)) := by rw [← pow_two, ← pow_mul]
        _ = acc * base ^ exponent := by rw [show 2 * (exponent / 2) = exponent by omega]

theorem power_eq (base exponent : Word) :
    Word.power base exponent = Word.ofInt (base.toInt ^ exponent.toAddress) := by
  have hbound : exponent.toAddress < 2 ^ 32 := exponent.toUInt32.toNat_lt
  have h := powerBits_eq 32 base.toInt 1 hbound
  rw [ofInt_toInt, one_mul] at h
  exact h

theorem absolute_eq : Machine.absolute word = Word.ofInt word.toInt.natAbs := by
  have hzero : (0 : Word).toInt = 0 := rfl
  rw [Machine.absolute]
  by_cases hneg : word < 0
  · have habs : (word.toInt.natAbs : Int) = -word.toInt := by
      rw [Int32.lt_iff_toInt_lt, hzero] at hneg
      omega
    rw [if_pos hneg, habs]
    exact sub_eq_neg word
  · have habs : (word.toInt.natAbs : Int) = word.toInt := by
      rw [Int32.lt_iff_toInt_lt, hzero] at hneg
      omega
    rw [if_neg hneg, habs, ofInt_toInt]

section Intrinsics

variable (m : Machine)

theorem host_builtin2 (name : Builtin2) (left right : Word) :
    m.host (builtin2Intrinsic name) [left, right] = (.ok (builtin2Word name left right), m) := by
  cases name with
  | pow =>
    rw [builtin2Word, ← power_eq]
    rfl
  | min =>
    have hmin : (if right < left then right else left) = builtin2Word .min left right := by
      rw [builtin2Word]
      split <;> rename_i h <;> rw [Int32.lt_iff_toInt_lt] at h
      · rw [Int.min_eq_right (by omega), ofInt_toInt]
      · rw [Int.min_eq_left (by omega), ofInt_toInt]
    rw [← hmin]
    rfl
  | max =>
    have hmax : (if right < left then left else right) = builtin2Word .max left right := by
      rw [builtin2Word]
      split <;> rename_i h <;> rw [Int32.lt_iff_toInt_lt] at h
      · rw [Int.max_eq_left (by omega), ofInt_toInt]
      · rw [Int.max_eq_right (by omega), ofInt_toInt]
    rw [← hmax]
    rfl

theorem host_abs (word : Word) : m.host .abs [word] = (.ok (Word.ofInt word.toInt.natAbs), m) := by
  rw [← absolute_eq]
  rfl

/-- The intrinsic that prints words of a scalar type. -/
def printerOf? : Ty → Option Intrinsic
  | .number => some .printNum
  | .bool => some .printBool
  | .none => some .printNone
  | _ => none

theorem host_print {ty : Ty} {printer : Intrinsic} (h : printerOf? ty = some printer)
    (word : Word) :
    ∃ line, shown? ty word = some line ∧ m.host printer [word] = (.ok word, m.print line) := by
  cases ty with
  | number =>
    cases h
    exact ⟨_, rfl, rfl⟩
  | bool =>
    cases h
    refine ⟨_, rfl, ?_⟩
    simp only [Machine.host, Machine.printing, toInt_eq_zero_iff, ite_not]
  | none =>
    cases h
    exact ⟨_, rfl, rfl⟩
  | _ => cases h

end Intrinsics

end TypedWasm.Scalar
