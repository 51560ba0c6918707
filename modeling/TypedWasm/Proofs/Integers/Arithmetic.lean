import Mathlib.Data.Rat.Floor
import TypedWasm.Proofs.Exact.Blocks
import TypedWasm.Proofs.Integers.Boxes
import TypedWasm.Proofs.Numbers.Lowered

/-!
# Arithmetic on big integers

Literals become blocks one after another from the heap head on, and the host puts the result behind
them. Nothing is rounded but quotients, which are rounded down, and nothing that was made is written
again.
-/

namespace TypedWasm

open Block Exec TypedWasm.Frame Heap Int List Lowering Machine Memory Numbers Option UInt32

variable {op : BinaryOp} {memory : Memory} {v : Int}

section Room

variable {m : Machine} {head bytes more : Nat} {words : List Word} {memory' : Memory}

theorem Machine.HasRoom.after (h : m.HasRoom head (bytes + more))
    (hfilled : m.memory.Filled head (head + bytes) words memory') :
    { m with memory := memory' }.HasRoom (head + bytes) more := by
  have hcounted := h.counted
  have hallowed := h.allowed
  have hsize := hfilled.kept.size
  rw [size_eq, size_eq] at hsize
  have hpages : m.memory.pages ≤ memory'.pages := by omega
  rw [← Nat.add_assoc] at hcounted hallowed
  exact ⟨hfilled.heap, hcounted, Nat.le_trans hallowed (max_le_max_right m.maxPages hpages)⟩

theorem Machine.HasRoom.allocateBigint (h : m.HasRoom head (numberBytes v))
    (hlow : head + numberBytes v < 2 ^ 31) :
    ∃ memory', m.allocateBigint v = (.ok (Word.ofNat head), { m with memory := memory' }) ∧
      m.memory.Filled head (head + numberBytes v) (bigintWords v) memory' := by
  rw [numberBytes] at h hlow
  obtain ⟨memory', hplace, hheap, hkept, hheld⟩ := placeWords_moves h.heap h.counted
  have hsigned := Word.toInt_ofNat_le head
  refine ⟨memory', ?_, hheld, hheap, hkept, h.heap.above⟩
  rw [allocateBigint_eq h.heap.word v h.counted, if_neg (by omega), if_pos h.allowed, hplace]

theorem Memory.Filled.integerAt {last place : Nat} (h : memory.Filled head last words memory')
    (hv : memory.IntegerAt place v) (hplace : 4 ≤ place) (hbelow : place + numberBytes v ≤ head) :
    memory'.IntegerAt place v :=
  hv.agree h.kept hplace hbelow

end Room

namespace Lowering

variable {context : Context} {progress later : Progress} {code : Code} {m : Machine}
  {frame : Frame} {head : Nat}

/-- **A literal** is made at the head. -/
theorem bigintWords_ends
    (hrun : (constantBlock Block.bigintSize (bigintWords v)).run context progress =
      (.ok code, later))
    (hroom : m.HasRoom head (numberBytes v)) (htemp : (frame.get? (tempName progress.temps)).isSome)
    (stack : List Word) : ∃ memory', Ends code ⟨m, frame,
      stack⟩ .next ⟨{ m with memory := memory' },
        frame.put (tempName progress.temps) (Word.ofNat head), Word.ofNat head :: stack⟩ ∧
      m.memory.Filled head (head + numberBytes v) (bigintWords v) memory' := by
  obtain ⟨size, stored, -, hsize, -, hstored, rfl⟩ := constantBlock_eq_ok hrun
  obtain rfl := storeConstants_eq (Nat.zero_le _) hstored
  have hsized : size.toNat = numberBytes v := hsize
  have hbytes : numberBytes v = 4 * (bigintWords v).length := rfl
  obtain ⟨memory', hlaid, hfilled⟩ := constants_laid m (tempName progress.temps)
    (frame.put (tempName progress.temps) (Word.ofNat head)) (bigintWords v) hroom.opened
    (by rw [length_nil]; omega)
  rw [← hsized] at hroom hlaid
  exact ⟨memory', (blockCode_ends hroom htemp (by rw [length_map]; omega) hlaid stack).1, hfilled⟩

/-- **Two literals** are made one behind the other. -/
theorem operands_end {a b : Int} {more : Nat} (hbig : context.config.bigNumbers = true)
    (htemps : ∀ index < progress.temps + 2, (frame.get? (tempName index)).isSome)
    (hroom : m.HasRoom head (numberBytes a + (numberBytes b + more))) (stack : List Word) :
    ∃ code memory' frame', (bothOperands (literal (.num a)) (literal (.num b))).run context
        progress = (.ok code, { progress with temps := progress.temps + 2 }) ∧
      Ends code ⟨m, frame, stack⟩ .next ⟨{ m with memory := memory' }, frame',
        [Word.ofNat head, Word.ofNat (head + numberBytes a)].reverse ++ stack⟩ ∧
      { m with memory := memory' }.HasRoom (head + numberBytes a + numberBytes b) more ∧
      memory'.IntegerAt head a ∧ memory'.IntegerAt (head + numberBytes a) b := by
  have hcounted := hroom.counted
  have hbytes : ∀ v, numberBytes v = 4 * (bigintWords v).length := fun _ => rfl
  rw [heapEnd] at hcounted
  have hliteral : ∀ {v : Int} {step : Progress}, numberBytes v < 2 ^ 32 → ∃ code,
      (literal (.num v)).run context step = (.ok code, { step with temps := step.temps + 1 }) ∧
      (constantBlock Block.bigintSize (bigintWords v)).run context step =
        (.ok code, { step with temps := step.temps + 1 }) := by
    intro v step hv
    obtain ⟨code, hcode⟩ := constantBlock_succeeds (by have := hbytes v; omega :
      (bigintWords v).length < 2 ^ 30) step
    exact ⟨code, Lower.bind_eq_ok_iff.2 ⟨true, _, bigNumbers_eq_ok_iff.2 ⟨hbig, rfl⟩, hcode⟩, hcode⟩
  obtain ⟨left, hleft, hmake⟩ := @hliteral a progress (by omega)
  obtain ⟨right, hright, hmake'⟩ :=
    @hliteral b { progress with temps := progress.temps + 1 } (by omega)
  obtain ⟨memory, hends, hfilled⟩ := bigintWords_ends hmake (hroom.mono (Nat.le_add_right _ _))
    (htemps _ (by omega)) stack
  have hnext := hroom.after hfilled
  have htemp : ((frame.put (tempName progress.temps) (Word.ofNat head)).get?
      (tempName (progress.temps + 1))).isSome := by
    rw [get?_put]
    split
    · simpa using htemps progress.temps (by omega)
    · exact htemps _ (by omega)
  obtain ⟨memory', hends', hfilled'⟩ := bigintWords_ends hmake' (hnext.mono (Nat.le_add_right _ _))
    htemp (Word.ofNat head :: stack)
  exact ⟨left ++ right, memory', _, bothOperands_eq_ok_iff.2 ⟨_, _, _, hleft, hright, rfl⟩,
    hends.append hends', hnext.after hfilled',
    hfilled'.integerAt hfilled.held hroom.heap.above (Nat.le_refl _), hfilled'.held⟩

end Lowering

/-- What an operator makes of two integers. A quotient is rounded down, and a remainder has the sign
of the divisor. -/
def Exact : BinaryOp → Int → Int → Int → Prop
  | .plus, a, b, c => c = a + b
  | .minus, a, b, c => c = a - b
  | .mul, a, b, c => c = a * b
  | .idiv, a, b, c => c = ⌊(a : ℚ) / b⌋
  | .mod, a, b, c => a = b * ⌊(a : ℚ) / b⌋ + c ∧ (c = 0 ∨ c.sign = b.sign) ∧ |c| < |b|
  | _, _, _, _ => False

theorem fdiv_eq_floor (a b : Int) : a.fdiv b = ⌊(a : ℚ) / b⌋ := by
  have hpos : ∀ (a : Int) (n : Nat), a.fdiv n = ⌊(a : ℚ) / n⌋ := fun a n => by
    rw [fdiv_eq_ediv_of_nonneg a (natCast_nonneg n), Rat.floor_intCast_div_natCast]
  -- a negative divisor hands its sign to the dividend
  obtain ⟨n, rfl | rfl⟩ := b.eq_nat_or_neg
  · exact_mod_cast hpos a n
  · have hneg := hpos (-a) n
    rw [← Int.neg_neg (n : Int), Int.neg_fdiv_neg] at hneg
    rw [hneg]
    congr 1
    push_cast
    ring

theorem fmod_exact (a : Int) {b : Int} (hb : b ≠ 0) :
    (a.fmod b = 0 ∨ (a.fmod b).sign = b.sign) ∧ |a.fmod b| < |b| := by
  rcases Int.lt_or_gt_of_ne hb with hneg | hpos
  · have hlow := fmod_nonneg_of_pos (-a) (Int.neg_pos_of_neg hneg)
    have hhigh := fmod_lt_of_pos (-a) (Int.neg_pos_of_neg hneg)
    have hflip : (-a).fmod (-b) = -a.fmod b := by
      rw [fmod_def, fmod_def, Int.neg_fdiv_neg]
      ring
    rw [hflip] at hlow hhigh
    refine ⟨?_, by rw [abs_of_neg hneg, abs_lt]; omega⟩
    rcases Int.lt_or_eq_of_le (Int.nonpos_of_neg_nonneg hlow) with hlt | hzero
    · exact .inr (by rw [sign_eq_neg_one_of_neg hlt, sign_eq_neg_one_of_neg hneg])
    · exact .inl hzero
  · have hlow := fmod_nonneg_of_pos a hpos
    have hhigh := fmod_lt_of_pos a hpos
    refine ⟨?_, by rw [abs_of_pos hpos, abs_lt]; omega⟩
    rcases Int.lt_or_eq_of_le hlow with hlt | hzero
    · exact .inr (by rw [sign_eq_one_of_pos hlt, sign_eq_one_of_pos hpos])
    · exact .inl hzero.symm

theorem exists_exact (hop : op ∈ [BinaryOp.plus, .minus, .mul, .idiv, .mod]) (a b : Int)
    (hdefined : op ∈ [BinaryOp.idiv, .mod] → b ≠ 0) :
    ∃ c, Division.flooring.arithmetic op a b = some c ∧ Exact op a b c := by
  simp only [mem_cons, not_mem_nil, or_false] at hop
  rcases hop with rfl | rfl | rfl | rfl | rfl
  · exact ⟨_, rfl, rfl⟩
  · exact ⟨_, rfl, rfl⟩
  · exact ⟨_, rfl, rfl⟩
  · have hb := hdefined (by decide)
    exact ⟨a.fdiv b, by simp [Division.arithmetic, Division.flooring, hb], fdiv_eq_floor a b⟩
  · have hb := hdefined (by decide)
    refine ⟨a.fmod b, by simp [Division.arithmetic, Division.flooring, hb], ?_, fmod_exact a hb⟩
    rw [← fdiv_eq_floor, mul_fdiv_add_fmod]

/-- An expression is lowered, and its run ends as given, with the integers in `held` in memory. -/
def Evaluates (context : Context) (progress : Progress) (e : Expr) (s : State) (flow : Flow)
    (stack : List Word) (held : List (Nat × Int)) : Prop :=
  ∃ code later memory' frame', (expr e).run context progress = (.ok code, later) ∧
    Ends code s flow ⟨{ s.machine with memory := memory' }, frame', stack⟩ ∧
    ∀ place v, (place, v) ∈ held →
      { s.machine with memory := memory' }.readBigint (Word.ofNat place) = .ok v

/-- An expression whose code calls the host on two literals. -/
def CallsHost (context : Context) (progress : Progress) (e : Expr) (called : Intrinsic)
    (a b : Int) : Prop :=
  called.arity = 2 ∧ ∀ operands later,
    (bothOperands (literal (.num a)) (literal (.num b))).run context progress =
      (.ok operands, later) →
    ∃ after, (expr e).run context progress = (.ok (operands ++ [.callIntrinsic called]), after)

section Operators

variable {context : Context} {progress : Progress} {e : Expr} {m : Machine} {frame : Frame}
  {head : Nat} {called : Intrinsic} {a b : Int}

theorem binary_callsHost (hbig : context.config.bigNumbers = true) (ty : Ty)
    (hop : bignumOp op = some called) (harity : called.arity = 2) (a b : Int) :
    CallsHost context progress
      (.binary ty op (.literal .number (.num a)) (.literal .number (.num b))) called a b := by
  refine ⟨harity, fun operands later hboth => ?_⟩
  have hand : op ≠ .and := by
    rintro rfl
    cases hop
  have hor : op ≠ .or := by
    rintro rfl
    cases hop
  have his : op ≠ .is := by
    rintro rfl
    cases hop
  rw [expr, binary_eq_wordOp hand hor his rfl]
  exact ⟨_, wordOp_hosted hbig hop hboth⟩

theorem neg_callsHost (hbig : context.config.bigNumbers = true) (ty : Ty) (a : Int) :
    CallsHost context progress (.unary ty .neg (.literal .number (.num a))) .bignumSub 0 a := by
  refine ⟨rfl, fun operands later hboth => ?_⟩
  obtain ⟨zero, middle, code, hzero, hcode, rfl⟩ := bothOperands_eq_ok_iff.1 hboth
  refine ⟨{ later with intrinsics := later.intrinsics.insert .bignumSub }, ?_⟩
  rw [expr]
  refine Lower.bind_eq_ok_iff.2 ⟨true, progress, bigNumbers_eq_ok_iff.2 ⟨hbig, rfl⟩, ?_⟩
  exact Lower.bind_eq_ok_iff.2
    ⟨zero, middle, hzero, Lower.bind_eq_ok_iff.2 ⟨code, later, hcode, rfl⟩⟩

variable (hbig : context.config.bigNumbers = true)
  (htemps : ∀ index < progress.temps + 2, (frame.get? (tempName index)).isSome)
  (hcalls : CallsHost context progress e called a b)
include hbig htemps hcalls

theorem CallsHost.makes {c : Int}
    (hroom : m.HasRoom head (numberBytes a + numberBytes b + numberBytes c))
    (hlow : head + (numberBytes a + numberBytes b + numberBytes c) < 2 ^ 31)
    (hhost : ∀ (m' : Machine) left right, m'.readBigint left = .ok a → m'.readBigint right = .ok b →
      m'.host called [left, right] = m'.allocateBigint c) (stack : List Word) :
    Evaluates context progress e ⟨m, frame, stack⟩ .next
      (Word.ofNat (head + numberBytes a + numberBytes b) :: stack)
      [(head, a), (head + numberBytes a, b), (head + numberBytes a + numberBytes b, c)] := by
  rw [Nat.add_assoc] at hroom
  obtain ⟨operands, memory, frame', hboth, hends, hnext, ha, hb⟩ :=
    operands_end hbig htemps hroom stack
  obtain ⟨after, hrun⟩ := hcalls.2 _ _ hboth
  obtain ⟨memory', hmake, hfilled⟩ := hnext.allocateBigint (by omega)
  have hsize := hnext.heap.size_le
  have hanswer := (hhost { m with memory } _ _ (readBigint_of_integerAt ha hsize)
    (readBigint_of_integerAt hb hsize)).trans hmake
  have habove := hroom.heap.above
  -- the result lies behind both operands
  have ha' := hfilled.integerAt ha habove (Nat.le_add_right _ _)
  have hb' := hfilled.integerAt hb (by omega) (Nat.le_refl _)
  refine ⟨_, after, memory', frame', hrun, hends.append (.hostValue _ hcalls.1 hanswer), ?_⟩
  have hsize' := hfilled.heap.size_le
  intro place v hin
  simp only [mem_cons, Prod.mk.injEq, not_mem_nil, or_false] at hin
  rcases hin with ⟨rfl, rfl⟩ | ⟨rfl, rfl⟩ | ⟨rfl, rfl⟩
  · exact readBigint_of_integerAt ha' hsize'
  · exact readBigint_of_integerAt hb' hsize'
  · exact readBigint_of_integerAt hfilled.held hsize'

theorem CallsHost.settles {flow : Flow} {stack stack' : List Word}
    (hroom : m.HasRoom head (numberBytes a + numberBytes b))
    (hcall : ∀ (m' : Machine) frame' left right, m'.readBigint left = .ok a → m'.readBigint right =
      .ok b → Ends [.callIntrinsic called] ⟨m', frame', [left, right].reverse ++ stack⟩ flow
        ⟨m', frame', stack'⟩) :
    Evaluates context progress e ⟨m, frame, stack⟩ flow stack'
      [(head, a), (head + numberBytes a, b)] := by
  obtain ⟨operands, memory, frame', hboth, hends, hnext, ha, hb⟩ :=
    operands_end hbig htemps (show m.HasRoom head (numberBytes a + (numberBytes b + 0)) from hroom)
      stack
  obtain ⟨after, hrun⟩ := hcalls.2 _ _ hboth
  have hsize := hnext.heap.size_le
  have hreadA := readBigint_of_integerAt ha hsize
  have hreadB := readBigint_of_integerAt hb hsize
  refine ⟨_, after, memory, frame', hrun,
    hends.append (hcall { m with memory } frame' _ _ hreadA hreadB), fun place v hin => ?_⟩
  simp only [mem_cons, Prod.mk.injEq, not_mem_nil, or_false] at hin
  rcases hin with ⟨rfl, rfl⟩ | ⟨rfl, rfl⟩
  · exact hreadA
  · exact hreadB

end Operators

theorem host_divideByZero (hop : op ∈ [BinaryOp.idiv, .mod]) :
    ∃ called, bignumOp op = some called ∧ called.arity = 2 ∧ ∀ (m : Machine) left right (a : Int),
      m.readBigint left = .ok a → m.readBigint right = .ok 0 →
      m.host called [left, right] = (.error .divideByZero, m) := by
  simp only [mem_cons, not_mem_nil, or_false] at hop
  rcases hop with rfl | rfl <;>
    refine ⟨_, rfl, rfl, fun m left right a hleft hright => ?_⟩ <;>
    simp only [host, hleft, hright, bind, Except.bind, bignumArithmetic, if_true]

/-- **Arithmetic is exact on all integers.** Operators on literals of any size make the mathematical
result behind the operands, which are kept. Division by zero is the only failure. -/
theorem bigint_arithmetic_exact {context : Context} {progress : Progress} {m : Machine}
    {frame : Frame} {head : Nat} (hbig : context.config.bigNumbers = true)
    (htemps : ∀ index < progress.temps + 2, (frame.get? (tempName index)).isSome)
    (ty : Ty) (stack : List Word) (a b : Int) :
    (∀ op ∈ [BinaryOp.plus, .minus, .mul, .idiv, .mod], (op ∈ [BinaryOp.idiv, .mod] → b ≠ 0) →
      ∃ c, Exact op a b c ∧ (m.HasRoom head (numberBytes a + numberBytes b + numberBytes c) →
        head + (numberBytes a + numberBytes b + numberBytes c) < 2 ^ 31 →
        Evaluates context progress
          (.binary ty op (.literal .number (.num a)) (.literal .number (.num b)))
          ⟨m, frame, stack⟩ .next (Word.ofNat (head + numberBytes a + numberBytes b) :: stack)
          [(head, a), (head + numberBytes a, b), (head + numberBytes a + numberBytes b, c)])) ∧
    (∀ op ∈ [BinaryOp.idiv, .mod], b = 0 → m.HasRoom head (numberBytes a + numberBytes b) →
      Evaluates context progress
        (.binary ty op (.literal .number (.num a)) (.literal .number (.num b))) ⟨m, frame, stack⟩
        (.trap .divideByZero) stack [(head, a), (head + numberBytes a, b)]) ∧
    (∀ op holds, comparison op a b = some holds → m.HasRoom head (numberBytes a + numberBytes b) →
      Evaluates context progress
        (.binary ty op (.literal .number (.num a)) (.literal .number (.num b))) ⟨m, frame, stack⟩
        .next ((if holds then 1 else 0) :: stack) [(head, a), (head + numberBytes a, b)]) ∧
    (m.HasRoom head (numberBytes 0 + numberBytes a + numberBytes (-a)) →
      head + (numberBytes 0 + numberBytes a + numberBytes (-a)) < 2 ^ 31 →
      Evaluates context progress (.unary ty .neg (.literal .number (.num a)))
        ⟨m, frame, stack⟩ .next (Word.ofNat (head + numberBytes 0 + numberBytes a) :: stack)
        [(head, 0), (head + numberBytes 0, a), (head + numberBytes 0 + numberBytes a, -a)]) := by
  refine ⟨fun op hop hdefined => ?_, fun op hop hzero hroom => ?_, fun op holds hholds hroom => ?_,
    fun hroom hlow => ?_⟩
  · obtain ⟨c, hvalue, hexact⟩ := exists_exact hop a b hdefined
    obtain ⟨called, hcalled, harity, hhost⟩ := host_arithmetic hvalue
    exact ⟨c, hexact, fun hroom hlow =>
      (binary_callsHost hbig ty hcalled harity a b).makes hbig htemps hroom hlow hhost stack⟩
  · subst hzero
    obtain ⟨called, hcalled, harity, hhost⟩ := host_divideByZero hop
    exact (binary_callsHost hbig ty hcalled harity a 0).settles hbig htemps hroom
      fun m' frame' left right hleft hright =>
        .hostTrap _ harity (hhost m' left right a hleft hright)
  · obtain ⟨called, hcalled, harity, hhost⟩ := host_comparison hholds
    refine (binary_callsHost hbig ty hcalled harity a b).settles hbig htemps hroom
      fun m' frame' left right hleft hright => ?_
    have hanswer := hhost m' left right hleft hright
    exact .hostValue _ harity hanswer
  · refine (neg_callsHost hbig ty a).makes hbig htemps hroom hlow
      (fun m' left right hleft hright => ?_) stack
    simp only [host, hleft, hright, bind, Except.bind, bignumArithmetic, Int.zero_sub]

def Machine.emptied : Machine where
  memory := ({ pages := 1 } : Memory).stores [(0, 16)]

/-- A third of `-2 ^ 40` is rounded down, and `-2 ^ 40` has no remainder by zero. -/
theorem Machine.emptied_divides : Evaluates { config := { numberRepr := .bigint } } {}
        (.binary .number .idiv (.literal .number (.num (-2 ^ 40))) (.literal .number (.num 3)))
        ⟨emptied, [(tempName 0, 0), (tempName 1, 0)], []⟩ .next [36]
        [(16, -2 ^ 40), (28, 3), (36, -366503875926)] ∧
      Evaluates { config := { numberRepr := .bigint } } {}
        (.binary .number .mod (.literal .number (.num (-2 ^ 40))) (.literal .number (.num 0)))
        ⟨emptied, [(tempName 0, 0), (tempName 1, 0)], []⟩ (.trap .divideByZero) []
        [(16, -2 ^ 40), (28, 0)] := by
  have hroom : emptied.HasRoom 16 32 :=
    ⟨⟨by decide +kernel, by decide, by decide, by decide +kernel, by decide +kernel⟩, by decide,
      by decide +kernel⟩
  have htemps : ∀ index < 0 + 2,
      (Frame.get? [(tempName 0, 0), (tempName 1, 0)] (tempName index)).isSome := by
    decide +kernel
  have hbytes : numberBytes (-2 ^ 40) = 12 ∧ numberBytes 3 = 8 ∧ numberBytes 0 = 4 ∧
      numberBytes (-366503875926) = 12 := by
    decide +kernel
  obtain ⟨ha, hb, hzero, hc⟩ := hbytes
  obtain ⟨hmakes, -⟩ := @bigint_arithmetic_exact { config := { numberRepr := .bigint } }
    {} emptied _ 16 rfl htemps .number [] (-2 ^ 40) 3
  obtain ⟨c, hexact, hquotient⟩ := hmakes .idiv (by decide) (by decide)
  obtain rfl : c = -366503875926 := by
    rw [hexact, Int.floor_eq_iff]
    norm_num
  rw [ha, hb, hc] at hquotient
  obtain ⟨-, hstops, -⟩ := @bigint_arithmetic_exact { config := { numberRepr := .bigint } }
    {} emptied _ 16 rfl htemps .number [] (-2 ^ 40) 0
  have hremainder := hstops .mod (by decide) rfl
  rw [ha, hzero] at hremainder
  exact ⟨hquotient hroom (by decide), hremainder (hroom.mono (by decide))⟩

end TypedWasm
