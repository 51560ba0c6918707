import TypedWasm.Proofs.Exact.Strings

/-!
# Boxed integers

A big integer in memory is its signed count of digits and its digits. The helpers turn it into a
word and a word into it: unboxing gives the integer if a word can hold it and the least word if not,
so the two are inverse on words.
-/

namespace TypedWasm

open Exec TypedWasm.Frame Int Int32 List Machine Option Word

namespace Limbs

theorem two_le_length_ofNat {n : Nat} (h : base ≤ n) : 2 ≤ (ofNat n).length := by
  have hbase : base = 2 ^ 32 := rfl
  have hlog : 32 ≤ n.log2 := (Nat.le_log2 (by omega)).2 (hbase ▸ h)
  obtain ⟨more, hmore⟩ : ∃ more, n.log2 / 32 = more + 1 := ⟨n.log2 / 32 - 1, by omega⟩
  have hrest : n / base ≠ 0 := by
    have hpos := Nat.div_pos h (by decide)
    omega
  rw [ofNat, hmore, digits, if_neg (by omega), digits, if_neg hrest]
  simp

theorem head?_ofInt {v : Int} (hv : v ≠ 0) :
    (ofInt v).head? = some (UInt32.ofNat (v.natAbs % base)) := by
  rw [ofInt, ofNat, digits, if_neg (natAbs_ne_zero.2 hv)]
  rfl

end Limbs

/-- The word of an integer, and the least word if there is none. -/
def Word.unboxed (v : Int) : Word := if Word.fits v then Word.ofInt v else -2147483648

theorem Word.unboxed_toInt (w : Word) : Word.unboxed w.toInt = w := by
  have hlow := w.le_toInt
  have hhigh := w.toInt_lt
  rw [unboxed, if_pos (by simp [fits]; omega), ofInt, Int32.ofInt_toInt]

/-- A big integer in memory. -/
def Memory.IntegerAt (memory : Memory) (address : Nat) (v : Int) : Prop :=
  memory.Holds address (Lowering.bigintWords v)

section Reading

variable {m : Machine} {address : Nat} {v : Int} (h : m.memory.IntegerAt address v)
  (hsize : m.memory.size ≤ 2 ^ 32)
include h hsize

theorem Memory.IntegerAt.length_lt : (Limbs.ofInt v).length < 2 ^ 30 ∧ address < 2 ^ 32 := by
  have hinside := Memory.Holds.inside h
  rw [Heap.length_bigintWords] at hinside
  omega

theorem Machine.readBigint_of_integerAt : m.readBigint (Word.ofNat address) = .ok v := by
  obtain ⟨hlength, hbase⟩ := Memory.IntegerAt.length_lt h hsize
  exact readBigint_of_holds hbase (by omega) h

theorem Memory.IntegerAt.loadCount : m.loadWord (Word.ofNat address) Block.countOffset =
    .ok (Word.ofInt (Limbs.signedCount v)) :=
  loadWord_first h rfl (Memory.IntegerAt.length_lt h hsize).2

theorem Memory.IntegerAt.toInt_count :
    (Word.ofInt (Limbs.signedCount v)).toInt = Limbs.signedCount v := by
  obtain ⟨hlength, -⟩ := Memory.IntegerAt.length_lt h hsize
  exact toInt_ofInt_of_natAbs_lt (by rw [Limbs.natAbs_signedCount]; omega)

theorem Memory.IntegerAt.loadLimb (hv : v ≠ 0) : m.loadWord (Word.ofNat address) Block.firstLimb =
    .ok (Word.ofNat (v.natAbs % 2 ^ 32)) := by
  have hword : (Lowering.bigintWords v)[1]? = some (Word.ofNat (v.natAbs % 2 ^ 32)) := by
    rw [Lowering.bigintWords, getElem?_cons_succ, getElem?_map, ← head?_eq_getElem?,
      Limbs.head?_ofInt hv]
    rfl
  exact loadWord_held h hword rfl (Memory.IntegerAt.length_lt h hsize).2

end Reading

namespace HelperBody

variable {m : Machine} {address : Nat} {v : Int}

/-- The tests of unboxing: more than one digit, or a digit that a word reads as negative. -/
theorem tooLarge_eq (h : m.memory.IntegerAt address v) (hsize : m.memory.size ≤ 2 ^ 32)
    (hv : v ≠ 0) : Word.ofBool (Word.ofInt (Limbs.signedCount v) > 1) |||
        Word.ofBool (Word.ofInt (Limbs.signedCount v) < -1) |||
        Word.ofBool (Word.ofNat (v.natAbs % 2 ^ 32) < 0) = Word.ofBool (2 ^ 31 ≤ v.natAbs) := by
  have hor : ∀ a b : Bool, Word.ofBool a ||| Word.ofBool b = Word.ofBool (a || b) := by decide
  have hone : (1 : Word).toInt = 1 := rfl
  have hminus : (-1 : Word).toInt = -1 := rfl
  have hzero : (0 : Word).toInt = 0 := rfl
  have hcount := Limbs.natAbs_signedCount v
  have hlimb := toInt_eq_bmod (Word.ofNat (v.natAbs % 2 ^ 32))
  rw [toAddress_ofNat (by omega), bmod_def] at hlimb
  rw [hor, hor, ← Bool.decide_or, ← Bool.decide_or]
  refine congrArg Word.ofBool (decide_eq_decide.2 ?_)
  rw [gt_iff_lt, lt_iff_toInt_lt, lt_iff_toInt_lt, lt_iff_toInt_lt, h.toInt_count hsize,
    hone, hminus, hzero, hlimb]
  by_cases hsmall : v.natAbs < 2 ^ 32
  · have hlength : (Limbs.ofInt v).length = 1 := by
      rw [Limbs.ofInt, Limbs.ofNat_of_lt hsmall, if_neg (natAbs_ne_zero.2 hv)]
      rfl
    split <;> omega
  · have hlength : 2 ≤ (Limbs.ofInt v).length := Limbs.two_le_length_ofNat (Nat.le_of_not_lt hsmall)
    constructor <;> intro _ <;> omega

theorem signed_natAbs (v : Int) :
    (if v < 0 then 0 - Word.ofNat v.natAbs else Word.ofNat v.natAbs) = Word.ofInt v := by
  rw [← ofInt_natCast]
  rcases Int.lt_or_le v 0 with hneg | hpos
  · rw [if_pos hneg, Int32.zero_sub, Word.ofInt, ← ofInt_neg, Word.ofInt]
    congr 1
    omega
  · rw [if_neg (Int.not_lt.2 hpos)]
    congr 1
    omega

theorem chooseSign_ends {frame : Frame} {name : String} {word : Word} {negative : Prop}
    [Decidable negative] (hget : frame.get? name = some word) (stack : List Word) :
    Ends [.choose [.const 0, .localGet name, .sub] [.localGet name]]
      ⟨m, frame, Word.ofBool (decide negative) :: stack⟩ .next
      ⟨m, frame, (if negative then 0 - word else word) :: stack⟩ := by
  refine .cond ?_ (by simp)
  by_cases hneg : negative
  · rw [if_pos (by rw [decide_eq_true hneg]; decide), if_pos hneg]
    refine .straight ?_
    simp only [Exec.straight, step, State.push, Instr.sub, hget, numeric]
  · rw [if_neg (by rw [decide_eq_false hneg]; decide), if_neg hneg]
    exact localGet_ends hget

/-- **Unboxing** gives the integer, or the least word if the integer does not fit. -/
theorem bignumToI32_answers (h : m.memory.IntegerAt address v) (hsize : m.memory.size ≤ 2 ^ 32) :
    Answers m bignumToI32 [Word.ofNat address] (.ok (Word.unboxed v)) m := by
  have hloadCount := h.loadCount hsize
  have hcount := h.toInt_count hsize
  have hsign := Limbs.sign_signedCount v
  have htest := tooLarge_eq h hsize
  generalize Word.ofInt (Limbs.signedCount v) = count at hloadCount hcount htest
  have hzero : count = 0 ↔ v = 0 := by
    rw [← toInt_inj, hcount]
    exact ⟨fun he => sign_eq_zero_iff_zero.1 (hsign ▸ he ▸ rfl), fun he => he ▸ rfl⟩
  generalize hcall : Frame.ofCall bignumToI32 [Word.ofNat address] = frame
  have hn : frame.get? "number" = some (Word.ofNat address) := hcall ▸ rfl
  have hc : frame.get? "count" = some 0 := hcall ▸ rfl
  have hl : frame.get? "limb" = some 0 := hcall ▸ rfl
  have hopen :
      Ends [.localGet "number", .load Block.countOffset, .localSet "count", .localGet "count", .eqz]
      ⟨m, frame, []⟩ .next ⟨m, frame.put "count" count, [Word.ofBool (count = 0)]⟩ := by
    refine .straight ?_
    simp [Exec.straight, step, State.push, hn, hc, hloadCount, set?_eq, get?_put]
  suffices hbody : ∃ last, Ends bignumToI32.body ⟨m, frame, []⟩ .next ⟨m, last, [Word.unboxed v]⟩ by
    obtain ⟨last, hbody⟩ := hbody
    subst hcall
    exact .ofBody hbody (.inl rfl) rfl
  by_cases hv : v = 0
  · refine ⟨frame.put "count" count, hopen.append (.cond ?_ (by simp))⟩
    rw [if_pos (by simp [hzero.2 hv, Word.ofBool]), hv]
    exact .straight rfl
  · have hloadLimb := h.loadLimb hsize hv
    have htests : Ends [.localGet "number", .load Block.firstLimb, .localSet "limb",
        .localGet "count", .const 1, .numeric .gtS, .localGet "count", .const (-1), .numeric .ltS,
        .numeric .or, .localGet "limb", .const 0, .numeric .ltS, .numeric .or]
        ⟨m, frame.put "count" count, []⟩ .next
        ⟨m, (frame.put "count" count).put "limb" (Word.ofNat (v.natAbs % 2 ^ 32)),
          [Word.ofBool (2 ^ 31 ≤ v.natAbs)]⟩ := by
      refine .straight ?_
      simp only [Exec.straight, step, State.push, hn, hc, hl, hloadLimb, set?_eq, get?_put,
        map_some, numeric, String.reduceEq, if_false, if_true, htest hv]
    refine ⟨(frame.put "count" count).put "limb" (Word.ofNat (v.natAbs % 2 ^ 32)),
      hopen.append (.cond ?_ (by simp))⟩
    rw [if_neg (by simp [mt hzero.1 hv, Word.ofBool])]
    refine htests.append (.cond ?_ (by simp))
    by_cases hlarge : 2 ^ 31 ≤ v.natAbs
    · -- the least integer that fits is the least word either way
      have hword : Word.unboxed v = -2147483648 := by
        by_cases hmin : v = -2147483648
        · rw [hmin]
          rfl
        · rw [Word.unboxed, if_neg (by simp [Word.fits]; omega)]
      rw [if_pos (by rw [decide_eq_true hlarge]; decide), hword]
      exact .straight rfl
    · have hword : Word.unboxed v = Word.ofInt v := by
        rw [Word.unboxed, if_pos (by simp [Word.fits]; omega)]
      have hneg : count < 0 ↔ v < 0 := by
        have hnought : (0 : Word).toInt = 0 := rfl
        rw [lt_iff_toInt_lt, hcount, hnought, ← sign_eq_neg_one_iff_neg, hsign,
          sign_eq_neg_one_iff_neg]
      rw [if_neg (by rw [decide_eq_false hlarge]; decide), Nat.mod_eq_of_lt (by omega), hword,
        ← signed_natAbs]
      refine @Ends.after [.localGet "count", .const 0, .numeric .ltS] _ _ _ _ _ (by
        simp only [Exec.straight, step, State.push, hc, get?_put, map_some, String.reduceEq,
          if_false, if_true, numeric, hneg]; rfl) ?_ (by simp [InstrOf.isAtomic])
      exact chooseSign_ends (by simp [get?_put, hl]) []

/-- The count and the digit that boxing writes are the box of the word, and zero needs no digit. -/
theorem boxed_eq (w : Word) : ∃ rest, [Word.ofBool (w > 0) - Word.ofBool (w < 0),
    if w < 0 then 0 - w else w] = Lowering.bigintWords w.toInt ++ rest := by
  have hlow := w.le_toInt
  have hhigh := w.toInt_lt
  have hzero : (0 : Word).toInt = 0 := rfl
  have hdigits : Limbs.ofInt w.toInt = _ :=
    Limbs.ofNat_of_lt (by show w.toInt.natAbs < 2 ^ 32; omega)
  have hback : Word.ofInt w.toInt = w := Int32.ofInt_toInt w
  have hcast : ∀ n : Nat, Word.ofUInt32 (UInt32.ofNat n) = Word.ofInt n := fun n =>
    (ofInt_natCast n).symm
  simp only [Lowering.bigintWords, Limbs.signedCount, hdigits, gt_iff_lt, lt_iff_toInt_lt, hzero]
  rcases Int.lt_trichotomy w.toInt 0 with hneg | hnone | hpos
  · have habs : (w.toInt.natAbs : Int) = -w.toInt := by omega
    have hnegated : Word.ofInt (-w.toInt) = 0 - w := by
      rw [Word.ofInt, ofInt_neg, Int32.ofInt_toInt, Int32.zero_sub]
    refine ⟨[], ?_⟩
    rw [if_pos hneg, if_neg (by omega), sign_eq_neg_one_of_neg hneg, map_singleton,
      length_singleton, hcast, habs, hnegated, decide_eq_true hneg, decide_eq_false (by omega)]
    rfl
  · obtain rfl : w = 0 := toInt_inj.1 hnone
    exact ⟨[0], rfl⟩
  · have habs : (w.toInt.natAbs : Int) = w.toInt := by omega
    refine ⟨[], ?_⟩
    rw [if_neg (by omega), if_neg (by omega), sign_eq_one_of_pos hpos, map_singleton,
      length_singleton, hcast, habs, hback, decide_eq_true hpos, decide_eq_false (by omega)]
    rfl

/-- **Boxing** a word makes its integer at the head. -/
theorem bignumFromI32_answers {head : Nat} (hroom : m.HasRoom head 8) (w : Word) :
    ∃ memory' words, Answers m bignumFromI32 [w] (.ok (Word.ofNat head))
      { m with memory := memory' } ∧
      m.memory.Filled head (head + 8) words memory' ∧ memory'.IntegerAt head w.toInt := by
  have hfirst : head + 4 * 0 + 4 ≤ head + 8 := by omega
  have hsecond : head + 4 * 1 + 4 ≤ head + 8 := by omega
  obtain ⟨rest, hwords⟩ := boxed_eq w
  generalize hcount : Word.ofBool (w > 0) - Word.ofBool (w < 0) = count at hwords
  generalize hlimb : (if w < 0 then 0 - w else w) = limb at hwords
  have hcounted := hroom.opened.store count hfirst
  have hstoreCount := hroom.opened.storeWord m Block.countOffset count rfl hfirst
  have hstoreLimb := hcounted.storeWord m Block.firstLimb limb rfl hsecond
  generalize hcall : Frame.ofCall bignumFromI32 [w] = frame
  have hv : frame.get? "value" = some w := hcall ▸ rfl
  have hr : frame.get? "result" = some 0 := hcall ▸ rfl
  have hbody : Ends bignumFromI32.body ⟨m, frame, []⟩ .next
      ⟨{ m with
          memory := ((m.memory.moveHead (head + 8)).setWord (head + 4 * 0) count).setWord
            (head + 4 * 1) limb },
        frame.put "result" (Word.ofNat head), [Word.ofNat head]⟩ := by
    refine (hroom.bump_ends (Allocation.pushes_constU Block.oneLimbSize frame) []).append ?_
    refine @Ends.after [.localSet "result", .localGet "result", .localGet "value", .const 0,
      .numeric .gtS, .localGet "value", .const 0, .numeric .ltS, .sub, .store Block.countOffset,
      .localGet "result", .localGet "value", .const 0, .numeric .ltS] _ _ _ _ _ (by
        simp only [Exec.straight, step, State.push, Instr.sub, hv, hr, set?_eq, get?_put,
          map_some, numeric, String.reduceEq, if_false, if_true, hcount, hstoreCount]; rfl) ?_
      (by simp [Instr.sub, InstrOf.isAtomic])
    refine (chooseSign_ends (by simp [get?_put, hv]; rfl) _).append ?_
    rw [hlimb]
    refine .straight ?_
    simp only [Exec.straight, step, State.push, hr, get?_put, map_some, if_true, hstoreLimb]
    rfl
  subst hcall
  have hfilled := hcounted.store limb hsecond
  have hheld : Memory.Holds _ head [count, limb] := hfilled.held
  rw [hwords] at hheld
  exact ⟨_, _, .ofBody hbody (.inl rfl) rfl, hfilled, hheld.left⟩

end HelperBody

end TypedWasm
