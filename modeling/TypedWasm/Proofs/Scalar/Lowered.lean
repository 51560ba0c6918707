import TypedWasm.Proofs.Failing
import TypedWasm.Proofs.Scalar.Words

/-!
# The code of scalar constructs

What lowering gives for literals, names, operators, calls and assignments of scalar programs where
numbers are words. None of it allocates, and only assignments make temporaries.
-/

namespace TypedWasm.Lowering

open Scalar (literalWord? printerOf?)
open Lower (bind_eq_ok_iff pure_eq_ok_iff)

variable {name : String} {left right : Lower Code} {op : BinaryOp} {ty : Ty}
  {arg : Lower Code} {rightEmpty leftEmpty : Bool} {source : String} {leftTy : Ty}

variable {context : Context} {progress later : Progress} {code : Code}

theorem bigNumbers_eq_ok_iff {big : Bool} : bigNumbers.run context progress = (.ok big, later) ↔
      context.config.bigNumbers = big ∧ progress = later := by
  simp [bigNumbers, and_comm]

theorem intrinsic_eq_ok_iff {called : Intrinsic} {instr : Instr} :
    (intrinsic called).run context progress = (.ok instr, later) ↔ .callIntrinsic called = instr ∧
        { progress with intrinsics := progress.intrinsics.insert called } = later := by
  simp [intrinsic, Lower.run]

theorem literal_code (hnative : context.config.bigNumbers = false) {value : Literal}
    (hscalar : value.isScalar = true)
    (h : (literal value).run context progress = (.ok code, later)) :
    ∃ word, literalWord? value = some word ∧ code = [.const word] := by
  cases value with
  | num number =>
    simp only [literal, bind_eq_ok_iff, bigNumbers_eq_ok_iff, hnative] at h
    obtain ⟨_, _, ⟨rfl, rfl⟩, h⟩ := h
    simp only [Bool.false_eq_true, if_false, nativeNumber] at h
    split at h
    · obtain ⟨rfl, -⟩ := pure_eq_ok_iff.1 h
      exact ⟨_, rfl, rfl⟩
    · exact absurd h (by simp)
  | bool | none =>
    obtain ⟨rfl, -⟩ := pure_eq_ok_iff.1 h
    exact ⟨_, rfl, rfl⟩
  | string => cases hscalar

theorem named_code {isLocal : Code} {isGlobal : UInt32 → Code}
    (h : (do
      let env := (← Lower.context).env
      if env.isLocal name then return isLocal
      else
        let address ← Lower.ofResult (env.globalAddress name)
        return isGlobal address).run context progress = (.ok code, later)) :
    (context.env.isLocal name = true ∧ code = isLocal) ∨
      (¬ context.env.isLocal name = true ∧ ∃ address,
        context.env.globalAddress name = .ok address ∧ code = isGlobal address) := by
  simp only [bind_eq_ok_iff, Lower.context_eq_ok_iff] at h
  obtain ⟨_, _, ⟨rfl, rfl⟩, h⟩ := h
  split at h
  · next hlocal =>
    obtain ⟨rfl, -⟩ := pure_eq_ok_iff.1 h
    exact .inl ⟨hlocal, rfl⟩
  · next hlocal =>
    simp only [bind_eq_ok_iff, Lower.ofResult_eq_ok_iff, pure_eq_ok_iff] at h
    obtain ⟨address, _, ⟨haddress, -⟩, rfl, -⟩ := h
    exact .inr ⟨hlocal, address, haddress, rfl⟩

theorem nameValue_code (h : (nameValue name).run context progress = (.ok code, later)) :
    (context.env.isLocal name = true ∧ code = [.localGet name]) ∨
      (¬ context.env.isLocal name = true ∧ ∃ address,
        context.env.globalAddress name = .ok address ∧ code = [.constU address, .load 0]) :=
  named_code h

theorem bothOperands_eq_ok_iff :
    (bothOperands left right).run context progress = (.ok code, later) ↔
      ∃ leftCode middle rightCode, left.run context progress = (.ok leftCode, middle) ∧
        right.run context middle = (.ok rightCode, later) ∧ leftCode ++ rightCode = code := by
  simp only [bothOperands, bind_eq_ok_iff, pure_eq_ok_iff]
  constructor
  · rintro ⟨leftCode, middle, hleft, rightCode, _, hright, rfl, rfl⟩
    exact ⟨leftCode, middle, rightCode, hleft, hright, rfl⟩
  · rintro ⟨leftCode, middle, rightCode, hleft, hright, rfl⟩
    exact ⟨leftCode, middle, hleft, rightCode, later, hright, rfl, rfl⟩

def operatorCode (op : BinaryOp) (left right : Code) : Code :=
  match op with
  | .and => left ++ [.choose right [.const 0]]
  | .or => left ++ [.choose [.const 1] right]
  | op => left ++ right ++ [.numeric (nativeOp op)]

theorem wordOp_code (hnative : context.config.bigNumbers = false)
    (h : (wordOp op ty left right).run context progress = (.ok code, later)) :
    ∃ leftCode middle rightCode, left.run context progress = (.ok leftCode, middle) ∧
      right.run context middle = (.ok rightCode, later) ∧
      code = leftCode ++ rightCode ++ [.numeric (nativeOp op)] := by
  simp only [wordOp, bind_eq_ok_iff, bothOperands_eq_ok_iff, bigNumbers_eq_ok_iff, hnative] at h
  obtain ⟨_, _, ⟨leftCode, middle, rightCode, hleft, hright, rfl⟩, _, _, ⟨rfl, rfl⟩, h⟩ := h
  simp only [Bool.false_eq_true, and_false, if_false] at h
  obtain ⟨rfl, rfl⟩ := pure_eq_ok_iff.1 h
  exact ⟨leftCode, middle, rightCode, hleft, hright, rfl⟩

theorem binary_eq_wordOp (hand : op ≠ .and) (hor : op ≠ .or) (his : op ≠ .is)
    (hscalar : leftTy.isScalar = true) :
    binary op leftTy leftEmpty rightEmpty left right = wordOp op leftTy left right := by
  cases leftTy with
  | number | bool | none => cases op <;> trivial
  | _ => cases hscalar

theorem binary_code (hnative : context.config.bigNumbers = false) (hscalar : leftTy.isScalar = true)
    (h : (binary op leftTy leftEmpty rightEmpty left right).run context progress =
      (.ok code, later)) :
    ∃ leftCode middle rightCode, left.run context progress = (.ok leftCode, middle) ∧
      right.run context middle = (.ok rightCode, later) ∧
      code = operatorCode op leftCode rightCode := by
  cases op with
  | and | or =>
    simp only [binary, bind_eq_ok_iff, pure_eq_ok_iff] at h
    obtain ⟨leftCode, middle, hleft, rightCode, _, hright, rfl, rfl⟩ := h
    exact ⟨leftCode, middle, rightCode, hleft, hright, rfl⟩
  | is =>
    simp only [binary, bind_eq_ok_iff, bothOperands_eq_ok_iff, pure_eq_ok_iff] at h
    obtain ⟨_, _, ⟨leftCode, middle, rightCode, hleft, hright, rfl⟩, rfl, rfl⟩ := h
    exact ⟨leftCode, middle, rightCode, hleft, hright, rfl⟩
  | _ =>
    rw [binary_eq_wordOp (by decide) (by decide) (by decide) hscalar] at h
    exact wordOp_code hnative h

/-- The code of a unary operator, given that of its operand. -/
def unaryCode (op : UnaryOp) (operand : Code) : Code :=
  match op with
  | .neg => .const 0 :: (operand ++ [.sub])
  | .not => operand ++ [.eqz]

theorem unary_code (hnative : context.config.bigNumbers = false) {op : UnaryOp}
    {operand : Lower Code} (h : (unary op operand).run context progress = (.ok code, later)) :
    ∃ operandCode, operand.run context progress = (.ok operandCode, later) ∧
      code = unaryCode op operandCode := by
  cases op with
  | neg =>
    simp only [unary, bind_eq_ok_iff, bigNumbers_eq_ok_iff, hnative] at h
    obtain ⟨_, _, ⟨rfl, rfl⟩, h⟩ := h
    simp only [Bool.false_eq_true, if_false, bind_eq_ok_iff, pure_eq_ok_iff] at h
    obtain ⟨operandCode, _, hoperand, rfl, rfl⟩ := h
    exact ⟨operandCode, hoperand, rfl⟩
  | not =>
    simp only [unary, bind_eq_ok_iff, pure_eq_ok_iff] at h
    obtain ⟨operandCode, _, hoperand, rfl, rfl⟩ := h
    exact ⟨operandCode, hoperand, rfl⟩

theorem call_code {args : Lower Code}
    (h : (call name args).run context progress = (.ok code, later)) :
    ∃ argsCode, args.run context progress = (.ok argsCode, later) ∧ name ∈ context.callables ∧
      code = argsCode ++ [.callUser name] := by
  simp only [call, userCall, bind_eq_ok_iff, Lower.context_eq_ok_iff, pure_eq_ok_iff] at h
  obtain ⟨argsCode, middle, hargs, _, _, ⟨_, _, ⟨rfl, rfl⟩, hcall⟩, rfl, rfl⟩ := h
  split at hcall
  · next hmem =>
    obtain ⟨rfl, rfl⟩ := pure_eq_ok_iff.1 hcall
    exact ⟨argsCode, hargs, List.contains_iff_mem.1 hmem, rfl⟩
  · exact absurd hcall (by simp)

section

variable (hnative : context.config.bigNumbers = false)
include hnative

theorem printer_code (hscalar : ty.isScalar = true) {found : Intrinsic}
    (h : (printer ty).run context progress = (.ok found, later)) :
    printerOf? ty = some found ∧ progress = later := by
  cases ty with
  | number =>
    simp only [printer, bind_eq_ok_iff, bigNumbers_eq_ok_iff, hnative, pure_eq_ok_iff] at h
    obtain ⟨_, _, ⟨rfl, rfl⟩, rfl, rfl⟩ := h
    exact ⟨rfl, rfl⟩
  | bool | none =>
    obtain ⟨rfl, rfl⟩ := pure_eq_ok_iff.1 h
    exact ⟨rfl, rfl⟩
  | _ => cases hscalar

theorem print_code (hscalar : ty.isScalar = true)
    (h : (builtin1 .print ty arg).run context progress = (.ok code, later)) :
    ∃ argCode middle found, arg.run context progress = (.ok argCode, middle) ∧
      printerOf? ty = some found ∧ code = argCode ++ [.callIntrinsic found] := by
  simp only [builtin1, bind_eq_ok_iff, intrinsic_eq_ok_iff, pure_eq_ok_iff] at h
  obtain ⟨found, _, hprinter, argCode, middle, harg, _, _, ⟨rfl, rfl⟩, rfl, -⟩ := h
  obtain ⟨hfound, rfl⟩ := printer_code hnative hscalar hprinter
  exact ⟨argCode, middle, found, harg, hfound, rfl⟩

theorem abs_code (h : (builtin1 .abs ty arg).run context progress = (.ok code, later)) :
    ∃ argCode middle, arg.run context progress = (.ok argCode, middle) ∧
      code = argCode ++ [.callIntrinsic .abs] := by
  simp only [builtin1, bind_eq_ok_iff, bigNumbers_eq_ok_iff, hnative] at h
  obtain ⟨_, _, ⟨rfl, rfl⟩, h⟩ := h
  simp only [Bool.false_eq_true, if_false, bind_eq_ok_iff, intrinsic_eq_ok_iff, pure_eq_ok_iff] at h
  obtain ⟨argCode, middle, harg, _, _, ⟨rfl, rfl⟩, rfl, -⟩ := h
  exact ⟨argCode, middle, harg, rfl⟩

theorem builtin2_code {name : Builtin2}
    (h : (builtin2 name left right).run context progress = (.ok code, later)) :
    ∃ leftCode middle rightCode last, left.run context progress = (.ok leftCode, middle) ∧
      right.run context middle = (.ok rightCode, last) ∧
      code = leftCode ++ rightCode ++ [.callIntrinsic (builtin2Intrinsic name)] := by
  simp only [builtin2, bind_eq_ok_iff, bigNumbers_eq_ok_iff, hnative] at h
  obtain ⟨_, _, ⟨rfl, rfl⟩, h⟩ := h
  simp only [Bool.false_eq_true, if_false, bind_eq_ok_iff, bothOperands_eq_ok_iff,
    intrinsic_eq_ok_iff, pure_eq_ok_iff] at h
  obtain ⟨_, last, ⟨leftCode, middle, rightCode, hleft, hright, rfl⟩, _, _, ⟨rfl, rfl⟩, rfl, -⟩ := h
  exact ⟨leftCode, middle, rightCode, last, hleft, hright, rfl⟩

end

theorem assignTo_id_code
    (h : (assignTo (.id name) [.localGet source]).run context progress = (.ok code, later)) :
    (context.env.isLocal name = true ∧ code = [.localGet source, .localSet name]) ∨
      (¬ context.env.isLocal name = true ∧ ∃ address, context.env.globalAddress name = .ok address ∧
        code = [.constU address, .localGet source, .store 0]) :=
  named_code h

/-- An assignment of the word in a local: nothing for an ignored position, a local or a slot. -/
theorem pattern_code {target : Pattern} {name? : Option String}
    (htarget : target.scalarTarget? = some name?)
    (h : (pattern target source).run context progress = (.ok code, later)) :
    (name? = none ∧ code = []) ∨ ∃ name, name? = some name ∧
      ((context.env.isLocal name = true ∧ code = [.localGet source, .localSet name]) ∨
        (¬ context.env.isLocal name = true ∧ ∃ address, context.env.globalAddress name =
          .ok address ∧ code = [.constU address, .localGet source, .store 0])) := by
  obtain ⟨isDestructured, valueType, slots⟩ := target
  rw [Pattern.scalarTarget?] at htarget
  split at htarget
  · next slot hwhole hslots =>
    obtain rfl : isDestructured = false := hwhole
    obtain rfl : slots = [slot] := hslots
    simp only [pattern, Bool.false_eq_true, if_false, wholeValue] at h
    split at h
    · exact absurd h (by simp)
    · split at htarget
      · next hignore =>
        rw [if_pos hignore] at h
        obtain ⟨rfl, -⟩ := pure_eq_ok_iff.1 h
        exact .inl ⟨(Option.some.inj htarget).symm, rfl⟩
      · next hignore =>
        rw [if_neg hignore] at h
        split at htarget
        · next name hid =>
          rw [hid] at h
          exact .inr ⟨name, (Option.some.inj htarget).symm, assignTo_id_code h⟩
        · cases htarget
  · cases htarget

end TypedWasm.Lowering
