import TypedWasm.Proofs.Integers.Arithmetic
import TypedWasm.Proofs.Integers.Indexing

/-!
# Literal indices of tuples

A literal index of 64 bits is checked against the arity and becomes an offset. A longer one is
refused where numbers are words. Where they are heap objects nothing checks it: it is unboxed as the
least word, and four times the least word is zero.
-/

namespace TypedWasm

open Block Exec Heap Lower Lowering Machine Numbers

namespace Lowering

def literalIndex (ty : Ty) (object : Expr) (k : Int) : Expr :=
  .index ty object (.literal .number (.num k))

/-- The position that an index means. It counts from the end when it is negative. -/
def tuplePosition (arity : Nat) (k : Int) : Nat := (if k < 0 then k + arity else k).toNat

variable {context : Context} {progress middle : Progress} {object : Expr} {elements : List Ty}
  {objectCode : Code} {k : Int}

theorem expr_literalIndex (hty : object.ty = .tuple elements) (ty : Ty) :
    expr (literalIndex ty object k) = tupleElement (.tuple elements) elements.length (some k)
      .number (expr object) (expr (.literal .number (.num k))) := by
  have hindex : ∀ key : Expr, expr (.index ty object key) =
      indexed object.ty key.literalNumber? key.ty (expr object) (expr key) :=
        fun key => by rw [expr]
  rw [literalIndex, hindex, hty]
  rfl

section Checked

variable (hty : object.ty = .tuple elements)
  (hobject : (expr object).run context progress = (.ok objectCode, middle)) (ty : Ty)
include hty hobject

theorem tupleIndex_accepts (hshort : elements.length ≤ 2 ^ 30)
    (hinside : -elements.length ≤ k ∧ k < elements.length) :
    ∃ offset, offset.toNat = 4 * tuplePosition elements.length k ∧
      (expr (literalIndex ty object k)).run context progress =
        (.ok (objectCode ++ [.load offset]), middle) := by
  have hfits : fits64 k = true := by
    simp only [fits64, Bool.and_eq_true, decide_eq_true_eq]
    omega
  have hkey : (some k).filter fits64 = some k := by simp [hfits]
  have hplace : tuplePosition elements.length k < 2 ^ 30 := by
    rw [tuplePosition]
    split <;> omega
  obtain ⟨offset, hoffset⟩ := exists_wordPlace hplace
  refine ⟨offset, ?_, ?_⟩
  · rw [toNat_wordOffset hoffset, UInt32.toNat_ofNat', Nat.mod_eq_of_lt (by omega)]
  · rw [expr_literalIndex hty ty]
    refine bind_eq_ok_iff.2 ⟨_, _, hobject, ?_⟩
    rw [hkey]
    simp only
    rw [if_neg (by split <;> omega)]
    exact bind_eq_ok_iff.2 ⟨offset, _, ofChecked_eq_ok_iff.2 ⟨hoffset, rfl⟩, rfl⟩

theorem tupleIndex_rejects (hfits : fits64 k = true)
    (houtside : ¬ (-elements.length ≤ k ∧ k < elements.length)) :
    (expr (literalIndex ty object k)).run context progress =
      (.error (.fault (.tupleIndex k object.ty)), middle) := by
  have hkey : (some k).filter fits64 = some k := by simp [hfits]
  rw [expr_literalIndex hty ty, hty]
  simp only [tupleElement]
  rw [run_bind, hobject, hkey]
  simp only
  rw [if_pos (by split <;> omega)]
  rfl

theorem tupleIndex_tooLarge (hnative : context.config.bigNumbers = false)
    (hlong : fits64 k = false) : (expr (literalIndex ty object k)).run context progress =
      (.error (.fault (.literalTooLarge k)), middle) := by
  have hkey : (some k).filter fits64 = none := by simp [hlong]
  have hword : Word.fits k = false := by
    simp only [fits64, Word.fits, Bool.and_eq_false_iff, decide_eq_false_iff_not] at hlong ⊢
    omega
  have hliteral : (expr (.literal .number (.num k))).run context middle =
      (.error (.fault (.literalTooLarge k)), middle) := by
    rw [expr, literal, run_bind, bigNumbers_eq_ok_iff.2 ⟨hnative, rfl⟩]
    simp only [Bool.false_eq_true, if_false, nativeNumber, hword]
    rfl
  rw [expr_literalIndex hty ty]
  simp only [tupleElement]
  rw [run_bind, hobject, hkey]
  simp only [indexWord]
  rw [run_bind, run_bind, hliteral]

theorem tupleIndex_deferred (hbig : context.config.bigNumbers = true) (hlong : fits64 k = false)
    {keyCode : Code} {later : Progress}
    (hliteral : (constantBlock Block.bigintSize (bigintWords k)).run context middle =
      (.ok keyCode, later)) :
    ∃ after, (expr (literalIndex ty object k)).run context progress =
      (.ok (objectCode ++ (keyCode ++ [.callHelper .bignumToI32]) ++
        [.constU wordSize, .mul, .add, .load 0]), after) := by
  have hkey : (some k).filter fits64 = none := by simp [hlong]
  have hindex : (expr (.literal .number (.num k))).run context middle = (.ok keyCode, later) :=
    bind_eq_ok_iff.2 ⟨true, _, bigNumbers_eq_ok_iff.2 ⟨hbig, rfl⟩, hliteral⟩
  obtain ⟨after, hword⟩ := indexWord_boxed hbig rfl hindex
  rw [expr_literalIndex hty ty]
  refine ⟨after, bind_eq_ok_iff.2 ⟨_, _, hobject, ?_⟩⟩
  rw [hkey]
  exact bind_eq_ok_iff.2 ⟨_, _, hword, rfl⟩

end Checked

end Lowering

section Runs

variable {objectCode : Code} {s : State} {m : Machine} {frame : Frame} {stack words : List Word}
  {address : Nat} {word : Word} (htuple : m.memory.Holds address words)
  (hsize : m.memory.size ≤ 2 ^ 32)
include htuple hsize

theorem tupleOffset_ends {place : Nat} {offset : UInt32} (hoffset : offset.toNat = 4 * place)
    (hword : words[place]? = some word)
    (hrun : Ends objectCode s .next ⟨m, frame, Word.ofNat address :: stack⟩) :
    Ends (objectCode ++ [.load offset]) s .next ⟨m, frame, word :: stack⟩ := by
  obtain ⟨hwithin, -⟩ := List.getElem?_eq_some_iff.1 hword
  have hinside := htuple.inside
  have hload : m.loadWord (Word.ofNat address) offset = .ok word :=
    loadWord_held htuple hword (by rw [hoffset]) (by omega)
  exact hrun.append (.straight (by simp only [Exec.straight, step, hload]))

theorem tupleLeast_ends (hword : words[0]? = some word)
    (hrun : Ends objectCode s .next ⟨m, frame, -2147483648 :: Word.ofNat address :: stack⟩) :
    Ends (objectCode ++ [.constU wordSize, .mul, .add, .load 0]) s .next
      ⟨m, frame, word :: stack⟩ := by
  obtain ⟨hwithin, -⟩ := List.getElem?_eq_some_iff.1 hword
  have hinside := htuple.inside
  have hload : m.loadWord (Word.ofNat address) 0 = .ok word :=
    loadWord_held htuple hword rfl (by omega)
  -- the product wraps, so the address is that of the tuple
  have hwraps : (-2147483648 : Word) * Word.ofUInt32 wordSize = 0 := by decide
  refine hrun.append (.straight ?_)
  simp only [Instr.constU, Instr.mul, Instr.add, Exec.straight, step, State.push, numeric, hwraps,
    Int32.add_zero, hload]

end Runs

/-- **Literal indices of tuples.** Where numbers are words, and for literals of 64 bits in either
representation, an index is accepted exactly if it is inside, and reads the element it means. Where
numbers are heap objects every longer literal is accepted, and reads the first element. -/
theorem tuple_index_exact {context : Context} {progress middle : Progress} {ty : Ty} {object : Expr}
    {elements : List Ty} {objectCode : Code} (hty : object.ty = .tuple elements)
    (hshort : elements.length ≤ 2 ^ 30)
    (hobject : (expr object).run context progress = (.ok objectCode, middle)) (k : Int) :
    (context.config.bigNumbers = false ∨ fits64 k = true →
      ((∃ code later, (expr (literalIndex ty object k)).run context progress = (.ok code, later)) ↔
        -elements.length ≤ k ∧ k < elements.length)) ∧ (-elements.length ≤ k ∧ k < elements.length →
      ∃ code later, (expr (literalIndex ty object k)).run context progress = (.ok code, later) ∧
        ∀ (s : State) (m : Machine) frame stack address words word, m.memory.size ≤ 2 ^ 32 →
          m.memory.Holds address words → words[tuplePosition elements.length k]? = some word →
          Ends objectCode s .next ⟨m, frame, Word.ofNat address :: stack⟩ →
          Ends code s .next ⟨m, frame, word :: stack⟩) ∧
    (context.config.bigNumbers = true → fits64 k = false → (bigintWords k).length < 2 ^ 30 →
      ∃ code later, (expr (literalIndex ty object k)).run context progress = (.ok code, later) ∧
        ∀ (s : State) (m : Machine) frame stack address words word head,
          m.HasRoom head (numberBytes k) → 4 ≤ address → address + 4 * words.length ≤ head →
          m.memory.Holds address words → words[0]? = some word →
          m.function? Helper.bignumToI32.name = some HelperBody.bignumToI32 →
          (frame.get? (tempName middle.temps)).isSome →
          Ends objectCode s .next ⟨m, frame, Word.ofNat address :: stack⟩ →
          ∃ memory' frame',
            Ends code s .next ⟨{ m with memory := memory' }, frame', word :: stack⟩) := by
  refine ⟨fun hchecked => ⟨?_, fun hinside => ?_⟩, fun hinside => ?_, fun hbig hlong hfits => ?_⟩
  · rintro ⟨code, later, hcode⟩
    by_contra houtside
    have hlong : fits64 k ≠ true := fun h => by
      cases (tupleIndex_rejects hty hobject ty h houtside).symm.trans hcode
    have hnative := hchecked.resolve_right hlong
    cases (tupleIndex_tooLarge hty hobject ty hnative (Bool.not_eq_true _ ▸ hlong)).symm.trans hcode
  · obtain ⟨offset, -, hrun⟩ := tupleIndex_accepts hty hobject ty hshort hinside
    exact ⟨_, _, hrun⟩
  · obtain ⟨offset, hoffset, hrun⟩ := tupleIndex_accepts hty hobject ty hshort hinside
    exact ⟨_, _, hrun, fun s m frame stack address words word hsize htuple hword hends =>
      tupleOffset_ends htuple hsize hoffset hword hends⟩
  · obtain ⟨keyCode, hliteral⟩ := @constantBlock_succeeds context (bigintWords k) hfits middle
    obtain ⟨after, hrun⟩ := tupleIndex_deferred hty hobject ty hbig hlong hliteral
    refine ⟨_, after, hrun, fun s m frame stack address words word head hroom habove hbelow
      htuple hword hfn htemp hends => ?_⟩
    obtain ⟨memory', hmake, hfilled⟩ := bigintWords_ends hliteral hroom htemp
      (Word.ofNat address :: stack)
    have hsize := hfilled.heap.size_le
    have hunboxed : Word.unboxed k = -2147483648 := by
      rw [Word.unboxed, if_neg]
      simp only [fits64, Word.fits, Bool.and_eq_false_iff, decide_eq_false_iff_not,
        Bool.and_eq_true, decide_eq_true_eq] at hlong ⊢
      omega
    have hfn' : { m with memory := memory' }.function? Helper.bignumToI32.name =
        some HelperBody.bignumToI32 := hfn
    have hkey := unboxing_ends hfn' hfilled.held hsize (hends.append hmake)
    rw [hunboxed] at hkey
    exact ⟨memory', _, tupleLeast_ends (htuple.agree hfilled.kept habove hbelow) hsize hword hkey⟩

/-- A body with a pair, where numbers are heap objects. -/
def Lowering.Context.pairing : Context where
  config := { numberRepr := .bigint }
  env := { locals := ["pair"] }

def Expr.pair : Expr := .id (.tuple [.bool, .bool]) "pair"

/-- A machine whose heap holds the words `5` and `6`. -/
def Machine.paired : Machine where
  memory := ({ pages := 1 } : Memory).stores [(0, 24), (16, 5), (20, 6)]
  functions := [Helper.bignumToI32.function 0]

/-- The last element of a pair is at `-1`, and there is none at `2`. -/
theorem Machine.paired_indexed :
    (∃ code later, (expr (literalIndex .bool .pair (-1))).run .pairing {} = (.ok code, later) ∧
      Ends code ⟨paired, [("pair", 16)], []⟩ .next ⟨paired, [("pair", 16)], [6]⟩) ∧
    ¬ ∃ code later, (expr (literalIndex .bool .pair 2)).run .pairing {} = (.ok code, later) := by
  have hobject : (expr .pair).run .pairing {} = (.ok [.localGet "pair"], {}) := rfl
  have hheld : paired.memory.Holds 16 [5, 6] := by decide +kernel
  obtain ⟨-, hreads, -⟩ := @tuple_index_exact _ _ _ .bool _ _ _ rfl (by decide) hobject (-1)
  obtain ⟨hchecked, -, -⟩ := @tuple_index_exact _ _ _ .bool _ _ _ rfl (by decide) hobject 2
  obtain ⟨code, later, hrun, hends⟩ := hreads (by decide)
  refine ⟨⟨code, later, hrun, ?_⟩, fun hok =>
    absurd ((hchecked (.inr (by decide))).1 hok) (by decide)⟩
  exact hends _ _ _ _ 16 [5, 6] 6 (by decide +kernel) hheld rfl (.straight rfl)

/-- The index `2 ^ 64` of a pair is accepted, and reads the first element. -/
theorem Machine.paired_accepts_beyond :
    ∃ code later, (expr (literalIndex .bool .pair (2 ^ 64))).run .pairing {} = (.ok code, later) ∧
      (exec code ⟨{ paired with fuel := 100 }, [("pair", 16), (tempName 0, 0)], []⟩).2.stack =
        [5] :=
  ⟨_, _, rfl, by decide +kernel⟩

end TypedWasm
