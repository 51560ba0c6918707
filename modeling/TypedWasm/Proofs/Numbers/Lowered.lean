import TypedWasm.Proofs.Bounds.Extents
import TypedWasm.Proofs.Numbers.Formulas

/-!
# Lowered formulas

The code of a formula delivers its value, where numbers are plain words and where they are heap
objects. Division rounds as its representation does: the machine truncates and the host rounds down.
-/

namespace TypedWasm.Numbers

open Block Exec Heap List Lowering Word
open Lower (bind_eq_ok_iff)

variable {takes : Machine → Word → Word → Prop} {a b value : Int}
  {holds leftEmpty rightEmpty hosted : Bool} {called : Intrinsic} {progress : Progress}
  {leftTy : Ty} {op : BinaryOp} {result : Word}

/-- What a word shows, where numbers are heap objects or plain words. -/
def Shows (big : Bool) : Quantity → Machine → Word → Prop
  | .number value, m, word => if big then m.readBigint word = .ok value else word.toInt = value
  | .truth value, _, word => word = Word.ofBool value

theorem Shows.plain {q : Quantity} {m : Machine} {word : Word} (h : Shows false q m word)
    (m' : Machine) : Shows false q m' word := by
  cases q <;> exact h

/-- The division of the generated code and that of the host. -/
def divisionOf (big : Bool) : Division := if big then .flooring else .truncating

theorem numeric_operates {op : NumericOp}
    (h : ∀ m left right, takes m left right → numeric op left right = .ok result) :
    Operates hosted (.numeric op) 0 takes fun _ word => word = result := by
  intro m frame stack head left right first hheap _ htakes
  have hrun : straight [.numeric op] ⟨m, frame, right :: left :: stack⟩ =
      some ⟨m, frame, result :: stack⟩ := by
    simp only [straight, step, h m left right htakes]
  refine .straightLine hrun fun fuel => ?_
  exact ⟨result, rfl, .ofMachine hheap rfl (by simp), .refl _ _ _, fun _ _ => rfl⟩

theorem operate_arithmetic (hfits : Word.fits value = true)
    (h : Division.truncating.arithmetic op a b = some value) :
    Scalar.operate op a b = .ok (Word.ofInt value) := by
  cases op with
  | plus | minus | mul =>
    cases h
    rfl
  | idiv | mod =>
    simp only [Division.arithmetic, Division.truncating, Option.ite_none_right_eq_some,
      decide_eq_true_eq, Option.some.injEq] at h
    obtain ⟨hne, rfl⟩ := h
    simp [Scalar.operate, hne, hfits]
  | _ => cases h

theorem operate_comparison (h : comparison op a b = some holds) :
    Scalar.operate op a b = .ok (Word.ofBool holds) := by
  cases op <;> cases h <;> rfl

theorem numeric_equality {a b : Bool} (h : equality op a b = some holds) :
    numeric (nativeOp op) (Word.ofBool a) (Word.ofBool b) = .ok (Word.ofBool holds) := by
  cases op with
  | eq | ne =>
    cases h
    cases a <;> cases b <;> decide
  | _ => cases h

section Floor

open Int Machine

variable {dividend divisor : Int}

/-- A truncated remainder has the sign of the dividend. -/
theorem crossed_tmod_iff (hne : divisor ≠ 0) :
    crossed (dividend.tmod divisor) divisor = true ↔
      ¬ divisor ∣ dividend ∧ (dividend < 0 ↔ 0 < divisor) := by
  simp only [crossed, Bool.and_eq_true, decide_eq_true_eq, bne_iff_ne, ne_eq, decide_eq_decide,
    dvd_iff_tmod_eq_zero]
  refine and_congr_right fun hrest => ?_
  have hsign : dividend.tmod divisor < 0 ↔ dividend < 0 := by
    constructor
    · intro hlt
      exact Int.not_le.1 fun hle => Int.not_le.2 hlt (tmod_nonneg divisor hle)
    · intro hlt
      have hflip := tmod_nonneg divisor (Int.neg_nonneg_of_nonpos (Int.le_of_lt hlt))
      rw [neg_tmod] at hflip
      omega
  rw [hsign]
  omega

/-- The quotient corrected by the signs is the floor. -/
theorem floorDiv_eq_fdiv (hne : divisor ≠ 0) :
    floorDiv dividend divisor = dividend.fdiv divisor := by
  rw [floorDiv, fdiv_eq_tdiv]
  simp only [crossed_tmod_iff hne]
  by_cases hdvd : divisor ∣ dividend
  · rw [if_neg (fun h => h.1 hdvd), if_pos hdvd, Int.sub_zero]
  · rw [if_neg hdvd]
    rcases Int.lt_or_gt_of_ne hne with hneg | hpos
    · rw [sign_eq_neg_one_of_neg hneg]
      split <;> omega
    · rw [sign_eq_one_of_pos hpos]
      split <;> omega

theorem floorMod_eq_fmod (hne : divisor ≠ 0) :
    floorMod dividend divisor = dividend.fmod divisor := by
  rw [fmod_def, ← floorDiv_eq_fdiv hne, floorDiv, floorMod, tmod_def]
  split
  · rw [Int.mul_sub, Int.mul_one]
    omega
  · rfl

end Floor

theorem host_arithmetic (h : Division.flooring.arithmetic op a b = some value) :
    ∃ called, bignumOp op = some called ∧ called.arity = 2 ∧ ∀ (m : Machine) left right,
      m.readBigint left = .ok a → m.readBigint right = .ok b →
      m.host called [left, right] = m.allocateBigint value := by
  cases op with
  | plus | minus | mul =>
    cases h
    refine ⟨_, rfl, rfl, fun m left right hleft hright => ?_⟩
    simp only [Machine.host, hleft, hright, bind, Except.bind, Machine.bignumArithmetic]
  | idiv | mod =>
    simp only [Division.arithmetic, Division.flooring, Option.ite_none_right_eq_some,
      decide_eq_true_eq, Option.some.injEq] at h
    obtain ⟨hne, rfl⟩ := h
    refine ⟨_, rfl, rfl, fun m left right hleft hright => ?_⟩
    simp only [Machine.host, hleft, hright, bind, Except.bind, Machine.bignumArithmetic, if_neg hne,
      floorDiv_eq_fdiv hne, floorMod_eq_fmod hne]
  | _ => cases h

theorem host_comparison (h : comparison op a b = some holds) :
    ∃ called, bignumOp op = some called ∧ called.arity = 2 ∧ ∀ (m : Machine) left right,
      m.readBigint left = .ok a → m.readBigint right = .ok b →
      m.host called [left, right] = (.ok (Word.ofBool holds), m) := by
  cases op with
  | eq | ne | lt | lte | gt | gte =>
    cases h
    refine ⟨_, rfl, rfl, fun m left right hleft hright => ?_⟩
    simp only [Machine.host, hleft, hright, bind, Except.bind, Machine.bignumComparison]
    rfl
  | _ => cases h

theorem makes_operates (harity : called.arity = 2)
    (hhost : ∀ (m : Machine) left right, m.readBigint left = .ok a → m.readBigint right = .ok b →
      m.host called [left, right] = m.allocateBigint value) :
    Operates true (.callIntrinsic called) (numberBytes value)
      (fun m left right => m.readBigint left = .ok a ∧ m.readBigint right = .ok b)
      fun m word => m.readBigint word = .ok value := by
  intro m frame stack head left right first hheap hroom ⟨hleft, hright⟩
  have hcases := Machine.allocateBigint_cases hheap value hroom
  rw [← hhost m left right hleft hright] at hcases
  have hwords := length_bigintWords value
  refine Reaches.host [left, right] harity ?_ ?_
  · intro word m' hword fuel
    rcases hcases with ⟨trap, herror, -⟩ | ⟨memory, hok, hheap', hagree, hholds⟩
    · cases herror.symm.trans hword
    · cases hok.symm.trans hword
      refine ⟨Word.ofNat head, rfl, .ofMachine hheap' rfl (by simp), hagree, fun m' hm' => ?_⟩
      have hend := hheap.below
      rw [heapEnd] at hend
      have hbytes : numberBytes value = 4 * (bigintWords value).length := rfl
      have hheld : m'.memory.Holds head (bigintWords value) :=
        hholds.agree hm' (Nat.le_refl _) (by omega)
      rw [heapEnd] at hroom
      exact Machine.readBigint_of_holds (by omega) (by omega) hheld
  · intro trap m' htrap
    rcases hcases with ⟨trap', herror, hreason⟩ | ⟨memory, hok, -⟩
    · cases herror.symm.trans htrap
      rcases hreason with ⟨rfl, hlimit⟩ | ⟨rfl, hlimit⟩
      · exact ⟨rfl, hlimit⟩
      · exact hlimit
    · cases hok.symm.trans htrap

theorem compares_operates (harity : called.arity = 2)
    (hhost : ∀ (m : Machine) left right, takes m left right →
      m.host called [left, right] = (.ok result, m)) :
    Operates hosted (.callIntrinsic called) 0 takes fun _ word => word = result := by
  intro m frame stack head left right first hheap _ htakes
  have hresult := hhost m left right htakes
  refine Reaches.host [left, right] harity ?_ ?_
  · intro word m' hword fuel
    cases hresult.symm.trans hword
    exact ⟨result, rfl, .ofMachine hheap rfl (by simp), .refl _ _ _, fun _ _ => rfl⟩
  · intro trap m' htrap
    cases hresult.symm.trans htrap

/-- A step of lowering that succeeds, with code that delivers. -/
def Lowers (hosted : Bool) (context : Context) (step : Lower Code) (bytes : Nat)
    (means : Machine → Word → Prop) : Prop :=
  ∀ progress, ∃ code later, step.run context progress = (.ok code, later) ∧
    progress.temps ≤ later.temps ∧
    Delivers hosted code progress.temps later.temps bytes [] means

/-- The bytes that big integers take, where numbers are heap objects. -/
def taken (big : Bool) (bytes : Nat) : Nat := if big then bytes else 0

/-- A step of lowering whose code delivers a value, within the bytes its numbers take. -/
def LowersTo (context : Context) (step : Lower Code) (x : Evaluated) : Prop :=
  Lowers context.config.bigNumbers context step (taken context.config.bigNumbers x.bytes)
    (Shows context.config.bigNumbers x.value)

theorem taken_add (big : Bool) (bytes more : Nat) :
    taken big (bytes + more) = taken big bytes + taken big more := by
  cases big <;> rfl

section Lowered

variable {context : Context} {left right operand : Lower Code} {later : Progress}

variable {ty : Ty}
variable {bytes leftBytes rightBytes : Nat}
variable {means means' leftMeans rightMeans : Machine → Word → Prop}

theorem Lowers.imp {step : Lower Code} (h : Lowers hosted context step bytes means)
    (himp : ∀ m word, means m word → means' m word) : Lowers hosted context step bytes means' := by
  intro progress
  obtain ⟨code, later, hrun, htemps, hdelivers⟩ := h progress
  exact ⟨code, later, hrun, htemps, hdelivers.imp himp⟩

theorem operands_lower {instr : Instr} (hleft : Lowers hosted context left leftBytes leftMeans)
    (hright : Lowers hosted context right rightBytes rightMeans)
    (htakes : ∀ m l r, leftMeans m l → rightMeans m r → takes m l r)
    (hinstr : Operates hosted instr bytes takes means) (progress : Progress) :
    ∃ operands later, (bothOperands left right).run context progress = (.ok operands, later) ∧
      progress.temps ≤ later.temps ∧
      Delivers hosted (operands ++ [instr]) progress.temps later.temps
        (leftBytes + rightBytes + bytes) [] means := by
  obtain ⟨leftCode, middle, hrun, htemps, hdelivers⟩ := hleft progress
  obtain ⟨rightCode, later, hrun', htemps', hdelivers'⟩ := hright middle
  refine ⟨leftCode ++ rightCode, later, bothOperands_eq_ok_iff.2 ⟨_, _, _, hrun, hrun', rfl⟩,
    Nat.le_trans htemps htemps', ?_⟩
  exact hdelivers.operate hdelivers' htemps htemps' htakes hinstr

theorem wordOp_lowers_plain (hplain : ¬ (ty = .number ∧ context.config.bigNumbers = true))
    (hleft : Lowers hosted context left leftBytes leftMeans)
    (hright : Lowers hosted context right rightBytes rightMeans) (result : Word)
    (hresult : ∀ m l r, leftMeans m l → rightMeans m r → numeric (nativeOp op) l r = .ok result) :
    Lowers hosted context (wordOp op ty left right) (leftBytes + rightBytes) fun _ word =>
      word = result := by
  intro progress
  obtain ⟨operands, later, hboth, htemps, hdelivers⟩ := operands_lower hleft hright
    hresult (numeric_operates fun _ _ _ h => h) progress
  refine ⟨operands ++ [.numeric (nativeOp op)], later, ?_, htemps, hdelivers⟩
  refine bind_eq_ok_iff.2 ⟨operands, later, hboth, ?_⟩
  refine bind_eq_ok_iff.2 ⟨_, later, bigNumbers_eq_ok_iff.2 ⟨rfl, rfl⟩, ?_⟩
  rw [if_neg hplain]
  rfl

theorem wordOp_hosted (hbig : context.config.bigNumbers = true) (hop : bignumOp op = some called)
    {operands : Code}
    (hboth : (bothOperands left right).run context progress = (.ok operands, later)) :
    (wordOp op .number left right).run context progress =
      (.ok (operands ++ [.callIntrinsic called]),
      { later with intrinsics := later.intrinsics.insert called }) := by
  refine bind_eq_ok_iff.2 ⟨operands, later, hboth, ?_⟩
  refine bind_eq_ok_iff.2 ⟨_, later, bigNumbers_eq_ok_iff.2 ⟨rfl, rfl⟩, ?_⟩
  rw [if_pos ⟨rfl, hbig⟩, hop]
  rfl

theorem wordOp_lowers_hosted (hbig : context.config.bigNumbers = true)
    (hop : bignumOp op = some called) (hleft : Lowers hosted context left leftBytes leftMeans)
    (hright : Lowers hosted context right rightBytes rightMeans)
    (htakes : ∀ m l r, leftMeans m l → rightMeans m r → takes m l r)
    (hinstr : Operates hosted (.callIntrinsic called) bytes takes means) :
    Lowers hosted context (wordOp op .number left right)
      (leftBytes + rightBytes + bytes) means := by
  intro progress
  obtain ⟨operands, later, hboth, htemps, hdelivers⟩ := operands_lower hleft hright htakes hinstr
    progress
  exact ⟨_, _, wordOp_hosted hbig hop hboth, htemps, hdelivers⟩

/-- The code of a logical operator. Its right operand runs only if the left one leaves the result
open. -/
theorem logic_code (hop : op ∈ [BinaryOp.and, .or]) {middle : Progress}
    {leftCode rightCode : Code} (hleft : left.run context progress = (.ok leftCode, middle))
    (hright : right.run context middle = (.ok rightCode, later)) (holds : Bool) :
    ∃ thenCode elseCode, (binary op leftTy leftEmpty rightEmpty left right).run context progress =
        (.ok (leftCode ++ [.choose thenCode elseCode]), later) ∧
      (holds = decide (op = .or) →
        (if holds then thenCode else elseCode) = [.const (Word.ofBool holds)]) ∧
      (holds = decide (op = .and) → (if holds then thenCode else elseCode) = rightCode) := by
  simp only [mem_cons, not_mem_nil, or_false] at hop
  rcases hop with rfl | rfl
  · refine ⟨rightCode, [.const 0], ?_, ?_, ?_⟩
    · exact bind_eq_ok_iff.2 ⟨_, _, hleft, bind_eq_ok_iff.2 ⟨_, _, hright, rfl⟩⟩
    · rintro rfl
      rfl
    · rintro rfl
      rfl
  · refine ⟨[.const 1], rightCode, ?_, ?_, ?_⟩
    · exact bind_eq_ok_iff.2 ⟨_, _, hleft, bind_eq_ok_iff.2 ⟨_, _, hright, rfl⟩⟩
    · rintro rfl
      rfl
    · rintro rfl
      rfl

theorem logic_lowers (hop : op ∈ [BinaryOp.and, .or])
    (hleft : Lowers hosted context left leftBytes fun _ word => word = Word.ofBool holds)
    (hright : Lowers hosted context right rightBytes rightMeans) :
    (holds = decide (op = .or) → Lowers hosted context
      (binary op leftTy leftEmpty rightEmpty left right) leftBytes fun _ word =>
        word = Word.ofBool holds) ∧
    (holds = decide (op = .and) → Lowers hosted context
      (binary op leftTy leftEmpty rightEmpty left right) (leftBytes + rightBytes) rightMeans) := by
  refine ⟨fun hdecided progress => ?_, fun hopen progress => ?_⟩
  all_goals
    obtain ⟨leftCode, middle, hrun, htemps, hdelivers⟩ := hleft progress
    obtain ⟨rightCode, later, hrun', htemps', hdelivers'⟩ := hright middle
    obtain ⟨thenCode, elseCode, hbinary, hskip, htaken⟩ := logic_code hop hrun hrun' holds
    refine ⟨_, later, hbinary, Nat.le_trans htemps htemps', ?_⟩
  · have hskipped : Delivers hosted (if holds then thenCode else elseCode) middle.temps
        later.temps 0 [] fun _ word => word = Word.ofBool holds := by
      rw [hskip hdecided]
      exact (const_delivers hosted _ _).widen htemps'
    exact hdelivers.choose hskipped htemps htemps'
  · refine hdelivers.choose ?_ htemps htemps'
    rw [htaken hopen]
    exact hdelivers'

theorem not_lowers (h : Lowers hosted context operand bytes fun _ word =>
    word = Word.ofBool holds) :
    Lowers hosted context (unary .not operand) bytes fun _ word => word = Word.ofBool !holds := by
  intro progress
  obtain ⟨code, later, hrun, htemps, hdelivers⟩ := h progress
  refine ⟨code ++ [.eqz], later, bind_eq_ok_iff.2 ⟨_, _, hrun, rfl⟩, htemps, ?_⟩
  refine hdelivers.apply [] ?_
  rintro m frame stack _ rfl
  refine ⟨m, Word.ofBool !holds, ?_, rfl, rfl, by simp, fun _ _ => rfl⟩
  cases holds <;> rfl

theorem storeConstants_succeeds {temp : String} {words : List Word} {index : Nat}
    (h : index + words.length < 2 ^ 30) :
    ∃ code, (storeConstants temp index words).run context progress = (.ok code, progress) := by
  induction words generalizing index with
  | nil => exact ⟨[], rfl⟩
  | cons word rest ih =>
    rw [length_cons] at h
    obtain ⟨offset, hoffset⟩ := exists_wordPlace (by omega : index < 2 ^ 30)
    obtain ⟨code, hcode⟩ := ih (by omega : index + 1 + rest.length < 2 ^ 30)
    refine ⟨storeWord temp offset [.const word] ++ code, ?_⟩
    exact bind_eq_ok_iff.2 ⟨offset, progress, Lower.ofChecked_eq_ok_iff.2 ⟨hoffset, rfl⟩,
      bind_eq_ok_iff.2 ⟨code, progress, hcode, rfl⟩⟩

theorem length_limbs_le (hfits : Word.fits value = true) : (Limbs.ofInt value).length ≤ 1 := by
  simp only [Word.fits, Bool.and_eq_true, decide_eq_true_eq] at hfits
  rw [Limbs.ofInt, Limbs.ofNat_of_lt (by rw [Limbs.base]; omega)]
  split <;> simp

theorem constantBlock_succeeds {words : List Word} (h : words.length < 2 ^ 30)
    (progress : Progress) : ∃ code, (constantBlock Block.stringSize words).run context progress =
      (.ok code, { progress with temps := progress.temps + 1 }) := by
  have hcount := toNat_ofNat_le words.tail.length
  have hone : (1 : UInt32).toNat = 1 := rfl
  rw [length_tail] at hcount
  obtain ⟨size, hsize⟩ := exists_size (by rw [hone, length_tail]; omega :
    (UInt32.ofNat words.tail.length).toNat + (1 : UInt32).toNat < 2 ^ 30)
  obtain ⟨stored, hstored⟩ := @storeConstants_succeeds
    { progress with temps := progress.temps + 1 } context (tempName progress.temps) words 0
      (by omega)
  refine ⟨Allocation.static size ++ [.localSet (tempName progress.temps)] ++ stored ++
    [.localGet (tempName progress.temps)], ?_⟩
  refine bind_eq_ok_iff.2 ⟨size, progress, Lower.ofChecked_eq_ok_iff.2 ⟨hsize, rfl⟩, ?_⟩
  refine bind_eq_ok_iff.2 ⟨(_, _), _, allocate_eq_ok_iff.2 ⟨rfl, rfl, rfl⟩, ?_⟩
  exact bind_eq_ok_iff.2 ⟨stored, _, hstored, rfl⟩

theorem bigintWords_lowers (hfits : Word.fits value = true) :
    Lowers hosted context (constantBlock Block.bigintSize (bigintWords value))
      (numberBytes value) fun m word =>
      m.readBigint word = .ok value := by
  intro progress
  have hlimbs := length_limbs_le hfits
  have hwords := length_bigintWords value
  obtain ⟨code, hrun⟩ := constantBlock_succeeds (by omega : (bigintWords value).length < 2 ^ 30)
    progress
  exact ⟨code, _, hrun, Nat.le_succ _, (bigintWords_delivers hrun).2⟩

theorem number_lowers (hfits : Word.fits value = true) :
    LowersTo context (literal (.num value)) ⟨.number value, numberBytes value⟩ := by
  intro progress
  cases hbig : context.config.bigNumbers with
  | true =>
    obtain ⟨code, later, hrun, htemps, hdelivers⟩ := bigintWords_lowers hfits progress
    refine ⟨code, later, ?_, htemps, hdelivers⟩
    refine bind_eq_ok_iff.2 ⟨true, progress, bigNumbers_eq_ok_iff.2 ⟨hbig, rfl⟩, hrun⟩
  | false =>
    refine ⟨[.const (Word.ofInt value)], progress, ?_, Nat.le_refl _, ?_⟩
    · refine bind_eq_ok_iff.2 ⟨false, progress, bigNumbers_eq_ok_iff.2 ⟨hbig, rfl⟩, ?_⟩
      simp only [Bool.false_eq_true, if_false, nativeNumber, if_pos hfits]
      rfl
    · refine (const_delivers false _ _).imp ?_
      rintro m _ rfl
      exact toInt_ofInt_of_fits hfits

theorem neg_lowers (hfits : Word.fits (-value) = true)
    (h : LowersTo context operand ⟨.number value, bytes⟩) : LowersTo context (unary .neg operand)
      ⟨.number (-value), numberBytes 0 + bytes + numberBytes (-value)⟩ := by
  intro progress
  cases hbig : context.config.bigNumbers with
  | true =>
    have hhost : ∀ (m : Machine) left right, m.readBigint left = .ok 0 →
        m.readBigint right = .ok value →
        m.host .bignumSub [left, right] = m.allocateBigint (-value) := by
      intro m left right hleft hright
      simp only [Machine.host, hleft, hright, bind, Except.bind, Machine.bignumArithmetic,
        Int.zero_sub]
    have hzero : LowersTo context (literal (.num 0)) _ := number_lowers rfl
    rw [LowersTo, hbig] at h hzero
    obtain ⟨zero, middle, hrun, htemps, hdelivers⟩ := hzero progress
    obtain ⟨code, later, hrun', htemps', hdelivers'⟩ := h middle
    refine ⟨zero ++ code ++ [.callIntrinsic .bignumSub],
      { later with intrinsics := later.intrinsics.insert .bignumSub }, ?_,
      Nat.le_trans htemps htemps', ?_⟩
    · refine bind_eq_ok_iff.2 ⟨true, progress, bigNumbers_eq_ok_iff.2 ⟨hbig, rfl⟩, ?_⟩
      exact bind_eq_ok_iff.2 ⟨zero, middle, hrun, bind_eq_ok_iff.2 ⟨code, later, hrun', rfl⟩⟩
    · exact hdelivers.operate hdelivers' htemps htemps' (fun _ _ _ hl hr => ⟨hl, hr⟩)
        (makes_operates rfl hhost)
  | false =>
    rw [LowersTo, hbig] at h
    obtain ⟨code, later, hrun, htemps, hdelivers⟩ := h progress
    refine ⟨[.const 0] ++ code ++ [.sub], later, ?_, htemps, ?_⟩
    · refine bind_eq_ok_iff.2 ⟨false, progress, bigNumbers_eq_ok_iff.2 ⟨hbig, rfl⟩, ?_⟩
      exact bind_eq_ok_iff.2 ⟨code, later, hrun, rfl⟩
    · have hsub : Operates false .sub 0 (fun _ left right => left = 0 ∧ right.toInt = value)
          fun _ word => word = Word.ofInt (-value) := by
        refine numeric_operates ?_
        rintro m _ right ⟨rfl, hright⟩
        show Except.ok (0 - right) = Except.ok (Word.ofInt (-value))
        rw [Scalar.sub_eq_neg, Scalar.operateUnary, hright]
      have hcode := (const_delivers false progress.temps 0).operate hdelivers (Nat.le_refl _) htemps
        (fun _ _ _ hl hr => ⟨hl, hr⟩) hsub
      rw [Nat.zero_add, Nat.add_zero] at hcode
      refine hcode.imp ?_
      rintro m _ rfl
      exact toInt_ofInt_of_fits hfits

theorem expr_eq_wordOp {left right : Expr} {ops : List BinaryOp}
    (hops : (.and ∉ ops ∧ .or ∉ ops) ∧ .is ∉ ops) (hop : op ∈ ops) (hleft : Formula leftTy left) :
    expr (.binary ty op left right) = wordOp op leftTy (expr left) (expr right) := by
  obtain ⟨hand, hor⟩ := Evaluated.ne_logic_of_mem hops.1 hop
  have hscalar : leftTy.isScalar = true := by cases hleft <;> rfl
  rw [expr, hleft.expr_ty, binary_eq_wordOp hand hor (fun his => hops.2 (his ▸ hop)) hscalar]

theorem arithmetic_lowers (hop : op ∈ [BinaryOp.plus, .minus, .mul, .idiv, .mod])
    (hvalue : (divisionOf context.config.bigNumbers).arithmetic op a b = some value)
    (hfits : Word.fits value = true)
    (hleft : LowersTo context left ⟨.number a, leftBytes⟩)
    (hright : LowersTo context right ⟨.number b, rightBytes⟩) :
    LowersTo context (wordOp op .number left right)
      ⟨.number value, leftBytes + rightBytes + numberBytes value⟩ := by
  obtain ⟨hand, hor⟩ := Evaluated.ne_logic_of_mem (by decide) hop
  rw [LowersTo] at hleft hright ⊢
  cases hbig : context.config.bigNumbers with
  | true =>
    rw [hbig] at hvalue hleft hright
    obtain ⟨called, hcalled, harity, hhost⟩ := host_arithmetic hvalue
    exact wordOp_lowers_hosted hbig hcalled hleft hright (fun _ _ _ hl hr => ⟨hl, hr⟩)
      (makes_operates harity hhost)
  | false =>
    rw [hbig] at hvalue hleft hright
    have hword : Lowers false context (wordOp op .number left right) (0 + 0) fun _ word =>
        word = Word.ofInt value := by
      refine wordOp_lowers_plain (by simp [hbig]) hleft hright _ ?_
      intro m l r (hl : l.toInt = a) (hr : r.toInt = b)
      rw [Scalar.numeric_nativeOp hand hor, hl, hr, operate_arithmetic hfits hvalue]
    refine hword.imp ?_
    rintro m _ rfl
    exact toInt_ofInt_of_fits hfits

theorem comparison_lowers (hop : op ∈ [BinaryOp.eq, .ne, .lt, .lte, .gt, .gte])
    (hholds : comparison op a b = some holds)
    (hleft : LowersTo context left ⟨.number a, leftBytes⟩)
    (hright : LowersTo context right ⟨.number b, rightBytes⟩) :
    LowersTo context (wordOp op .number left right) ⟨.truth holds, leftBytes + rightBytes⟩ := by
  obtain ⟨hand, hor⟩ := Evaluated.ne_logic_of_mem (by decide) hop
  rw [LowersTo] at hleft hright ⊢
  cases hbig : context.config.bigNumbers with
  | true =>
    rw [hbig] at hleft hright
    obtain ⟨called, hcalled, harity, hhost⟩ := host_comparison hholds
    refine wordOp_lowers_hosted hbig hcalled hleft hright (fun _ _ _ hl hr => And.intro hl hr)
      (compares_operates harity ?_)
    exact fun m l r h => hhost m l r h.1 h.2
  | false =>
    rw [hbig] at hleft hright
    refine wordOp_lowers_plain (by simp [hbig]) hleft hright (Word.ofBool holds) ?_
    intro m l r (hl : l.toInt = a) (hr : r.toInt = b)
    rw [Scalar.numeric_nativeOp hand hor, hl, hr, operate_comparison hholds]

end Lowered

/-- **Formulas.** The code of a formula delivers its value, under the division of its numbers. -/
theorem formula_lowers {context : Context} {ty : Ty} {e : Expr} (h : Formula ty e) {x : Evaluated}
    (hx : e.evaluate (divisionOf context.config.bigNumbers) = some x) :
    LowersTo context (expr e) x := by
  induction h generalizing x with
  | number value =>
    obtain ⟨hfits, rfl⟩ := Evaluated.made_eq_some_iff.1 hx
    rw [Nat.zero_add]
    exact number_lowers hfits
  | truth value =>
    cases hx
    intro progress
    refine ⟨[.const (Word.ofBool value)], progress, rfl, Nat.le_refl _, ?_⟩
    rw [taken, ite_self]
    exact const_delivers _ _ _
  | neg h ih =>
    obtain ⟨⟨found, bytes⟩, hfound, hx⟩ := Expr.evaluate_unary hx
    obtain ⟨value, rfl⟩ := Quantity.ty_eq_number (h.value_ty hfound)
    obtain ⟨hfits, rfl⟩ := Evaluated.made_eq_some_iff.1 hx
    exact neg_lowers hfits (ih hfound)
  | not h ih =>
    obtain ⟨⟨found, bytes⟩, hfound, hx⟩ := Expr.evaluate_unary hx
    obtain ⟨holds, rfl⟩ := Quantity.ty_eq_bool (h.value_ty hfound)
    cases hx
    exact not_lowers (ih hfound)
  | arithmetic hop hl hr ihl ihr =>
    obtain ⟨⟨_, _⟩, ⟨_, _⟩, hl', hr', hx⟩ := Expr.evaluate_binary hx
    obtain ⟨a, rfl⟩ := Quantity.ty_eq_number (hl.value_ty hl')
    obtain ⟨b, rfl⟩ := Quantity.ty_eq_number (hr.value_ty hr')
    obtain ⟨value, hvalue, hfits, rfl⟩ := Evaluated.binary_arithmetic hop rfl rfl hx
    rw [expr_eq_wordOp (by decide) hop hl]
    exact arithmetic_lowers hop hvalue hfits (ihl hl') (ihr hr')
  | comparison hop hl hr ihl ihr =>
    obtain ⟨⟨_, _⟩, ⟨_, _⟩, hl', hr', hx⟩ := Expr.evaluate_binary hx
    obtain ⟨a, rfl⟩ := Quantity.ty_eq_number (hl.value_ty hl')
    obtain ⟨b, rfl⟩ := Quantity.ty_eq_number (hr.value_ty hr')
    obtain ⟨holds, hholds, rfl⟩ := Evaluated.binary_comparison hop rfl rfl hx
    rw [expr_eq_wordOp (by decide) hop hl]
    exact comparison_lowers hop hholds (ihl hl') (ihr hr')
  | equality hop hl hr ihl ihr =>
    obtain ⟨⟨_, _⟩, ⟨_, _⟩, hl', hr', hx⟩ := Expr.evaluate_binary hx
    obtain ⟨a, rfl⟩ := Quantity.ty_eq_bool (hl.value_ty hl')
    obtain ⟨b, rfl⟩ := Quantity.ty_eq_bool (hr.value_ty hr')
    obtain ⟨holds, hholds, rfl⟩ := Evaluated.binary_equality hop rfl rfl hx
    rw [expr_eq_wordOp (by decide) hop hl, LowersTo, taken_add]
    refine wordOp_lowers_plain (by simp) (ihl hl') (ihr hr') (Word.ofBool holds) ?_
    rintro m _ _ rfl rfl
    exact numeric_equality hholds
  | logic hop hl hr ihl ihr =>
    obtain ⟨⟨_, _⟩, r, hl', hr', hx⟩ := Expr.evaluate_binary hx
    obtain ⟨holds, rfl⟩ := Quantity.ty_eq_bool (hl.value_ty hl')
    rcases Evaluated.binary_logic hop rfl hx with ⟨hdecided, rfl⟩ | ⟨hopen, rfl⟩
    · exact (logic_lowers hop (ihl hl') (ihr hr')).1 hdecided
    · rw [LowersTo, taken_add]
      exact (logic_lowers hop (ihl hl') (ihr hr')).2 hopen

end TypedWasm.Numbers
