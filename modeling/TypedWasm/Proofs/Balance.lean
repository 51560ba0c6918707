import TypedWasm.Proofs.Discipline

/-!
# Listings with a known balance

Rules for listings that take a known number of words and leave a known number, whatever stands below
them on the stack. Code after an unconditional jump may leave fewer.
-/

namespace TypedWasm

open List Option

variable {stack : Validate.Stack} {words popped left : Nat}
  {typeOf typeOf' : Callee → Option FuncType} {i : Instr} {code : Code} {results : Nat}

namespace Validate.Stack

/-- A stack of the given height, or lower in unreachable code. -/
structure Fits (stack : Stack) (words : Nat) : Prop where
  le : stack.words ≤ words
  eq : stack.unreachable = false → stack.words = words

theorem Fits.empty : Fits {} 0 := ⟨Nat.le_refl _, fun _ => rfl⟩

theorem Fits.dead (words : Nat) : dead.Fits words := ⟨Nat.zero_le _, fun h => by cases h⟩

theorem Fits.pop {count : Nat} (h : stack.Fits words) (hle : count ≤ words) :
    ∃ rest, stack.pop count = some rest ∧ rest.Fits (words - count) := by
  obtain ⟨hwords, heq⟩ := h
  rw [Stack.pop]
  by_cases hcount : count ≤ stack.words
  · rw [if_pos hcount]
    exact ⟨_, rfl, by simp only; omega, fun hreach => by simp only [heq hreach]⟩
  · rw [if_neg hcount]
    cases hreach : stack.unreachable with
    | true => exact ⟨_, rfl, Nat.zero_le _, fun h => by simp at h⟩
    | false => exact absurd (heq hreach ▸ hle) hcount

theorem Fits.push (h : stack.Fits words) (count : Nat) : (stack.push count).Fits (words + count) :=
  ⟨Nat.add_le_add_right h.le count, fun hreach => by rw [Stack.push, h.eq hreach]⟩

theorem Fits.swap (h : stack.Fits words) (hle : popped ≤ words) (pushed : Nat) :
    ∃ after, stack.swap popped pushed = some after ∧ after.Fits (words - popped + pushed) := by
  obtain ⟨rest, hpop, hrest⟩ := h.pop hle
  exact ⟨_, by rw [Stack.swap, hpop, map_some], hrest.push pushed⟩

theorem Fits.ends (h : stack.Fits results) : stack.ends results = true := by
  obtain ⟨rest, hpop, hrest⟩ := h.pop (Nat.le_refl _)
  have hzero : rest.words = 0 := by
    have hle := hrest.le
    omega
  simp [Stack.ends, hpop, hzero]

end Validate.Stack

namespace Discipline

open Validate (Stack)

variable {scope : Scope} {labels : List Nat} {name : String}

/-- A listing that takes `popped` words and leaves `pushed`, above any others. -/
def Moves (scope : Scope) (labels : List Nat) (code : Code) (popped pushed : Nat) : Prop :=
  ∀ below stack, Stack.Fits stack (below + popped) →
    ∃ after, listing scope labels stack code = some after ∧ after.Fits (below + pushed)

theorem effect_localGet (h : scope.hasLocal name = true) :
    effect scope (.localGet name) = some (0, 1) := by
  simp [effect, h]

theorem effect_localSet (h : scope.hasLocal name = true) :
    effect scope (.localSet name) = some (1, 0) := by
  simp [effect, h]

/-- The words that an instruction without names, jumps and listings takes and leaves. -/
def plainEffect (i : Instr) : Nat × Nat := (effect ⟨fun _ => false, fun _ => none⟩ i).getD (0, 0)

/-- The words that a listing of such instructions takes and leaves. -/
def balance : Code → Nat × Nat
  | [] => (0, 0)
  | i :: rest => ((balance rest).1 - (plainEffect i).2 + (plainEffect i).1,
      (plainEffect i).2 - (balance rest).1 + (balance rest).2)

theorem listing_append (stack : Stack) (first second : Code) :
    listing scope labels stack (first ++ second) =
      (listing scope labels stack first).bind fun stack => listing scope labels stack second := by
  induction first generalizing stack with
  | nil => rfl
  | cons i rest ih =>
    rw [cons_append, listing, listing, Option.bind_assoc]
    exact congrArg _ (funext ih)

theorem Moves.single {pushed : Nat} (h : ∀ below stack, Stack.Fits stack (below + popped) →
      ∃ after, instr scope labels stack i = some after ∧ after.Fits (below + pushed)) :
    Moves scope labels [i] popped pushed := by
  intro below stack hfits
  obtain ⟨after, hstep, hafter⟩ := h below stack hfits
  refine ⟨after, ?_, hafter⟩
  rw [listing, hstep]
  rfl

namespace Moves

variable {first second rest : Code} {pushed taken between : Nat} {depth : UInt32}
  {arity : Nat}

theorem nil (count : Nat) : Moves scope labels [] count count :=
  fun _ stack hfits => ⟨stack, rfl, hfits⟩

theorem append (h : Moves scope labels first popped between)
    (h' : Moves scope labels second between pushed) :
    Moves scope labels (first ++ second) popped pushed := by
  intro below stack hfits
  obtain ⟨mid, hfirst, hmid⟩ := h below stack hfits
  obtain ⟨after, hsecond, hafter⟩ := h' below mid hmid
  refine ⟨after, ?_, hafter⟩
  rw [listing_append, hfirst]
  exact hsecond

theorem frame (h : Moves scope labels code popped pushed) (count : Nat) :
    Moves scope labels code (count + popped) (count + pushed) := by
  intro below stack hfits
  rw [← Nat.add_assoc] at hfits ⊢
  exact h (below + count) stack hfits

theorem compose (h : Moves scope labels first popped between)
    (h' : Moves scope labels second taken pushed) :
    Moves scope labels (first ++ second) (taken - between + popped) (between - taken + pushed) := by
  have hheight : between - taken + taken = taken - between + between := by omega
  exact (h.frame (taken - between)).append (hheight ▸ h'.frame (between - taken))

theorem effect (h : effect scope i = some (taken, left)) : Moves scope labels [i] taken left := by
  apply Moves.single
  intro below stack hfits
  obtain ⟨after, hswap, hafter⟩ := hfits.swap (Nat.le_add_left taken below) left
  refine ⟨after, ?_, by simpa using hafter⟩
  cases i with
  | ret | unreachable | block | loop | cond | br | brIf => simp [Discipline.effect] at h
  | _ => simpa only [instr, h, bind_some] using hswap

theorem cons (h : Discipline.effect scope i = some (taken, left)) (hle : taken ≤ popped)
    (hrest : Moves scope labels rest (popped - taken + left) pushed) :
    Moves scope labels (i :: rest) popped pushed := by
  have hfirst := (effect h : Moves scope labels [i] taken left).frame (popped - taken)
  rw [Nat.sub_add_cancel hle] at hfirst
  exact hfirst.append hrest

theorem ret (pushed : Nat) : Moves scope labels [.ret] 1 pushed := by
  apply Moves.single
  intro below stack hfits
  obtain ⟨rest, hpop, -⟩ := hfits.pop (Nat.le_add_left 1 below)
  exact ⟨.dead, by simp [instr, hpop], .dead _⟩

theorem unreachable (popped pushed : Nat) : Moves scope labels [.unreachable] popped pushed :=
  Moves.single fun _ _ _ => ⟨.dead, rfl, .dead _⟩

theorem br (h : labels[depth.toNat]? = some arity) (pushed : Nat) :
    Moves scope labels [.br depth] arity pushed := by
  apply Moves.single
  intro below stack hfits
  obtain ⟨rest, hpop, -⟩ := hfits.pop (Nat.le_add_left arity below)
  exact ⟨.dead, by simp [instr, h, hpop], .dead _⟩

theorem brIf (h : labels[depth.toNat]? = some arity) :
    Moves scope labels [.brIf depth] (arity + 1) arity := by
  apply Moves.single
  intro below stack hfits
  obtain ⟨rest, hpop, hrest⟩ := hfits.pop (show 1 ≤ below + (arity + 1) by omega)
  obtain ⟨after, hswap, hafter⟩ := hrest.swap (show arity ≤ below + (arity + 1) - 1 by omega) arity
  refine ⟨after, by simp [instr, hpop, h, hswap], ?_⟩
  have hheight : below + (arity + 1) - 1 - arity + arity = below + arity := by omega
  rwa [hheight] at hafter

theorem ends (h : Moves scope labels code 0 results) :
    ∃ after, listing scope labels {} code = some after ∧ after.ends results = true := by
  obtain ⟨after, hcode, hafter⟩ := h 0 {} .empty
  rw [Nat.zero_add] at hafter
  exact ⟨after, hcode, hafter.ends⟩

theorem block (h : Moves scope (0 :: labels) code 0 0) : Moves scope labels [.block code] 0 0 := by
  obtain ⟨inner, hinner, hends⟩ := h.ends
  exact Moves.single fun _ stack hfits => ⟨stack, by simp [instr, hinner, hends], hfits⟩

theorem loop (h : Moves scope (0 :: labels) code 0 0) : Moves scope labels [.loop code] 0 0 := by
  obtain ⟨inner, hinner, hends⟩ := h.ends
  exact Moves.single fun _ stack hfits => ⟨stack, by simp [instr, hinner, hends], hfits⟩

theorem cond {yields : Bool} {thenBody elseBody : Code}
    (hthen : Moves scope (yielded yields :: labels) thenBody 0 (yielded yields))
    (helse : Moves scope (yielded yields :: labels) elseBody 0 (yielded yields)) :
    Moves scope labels [.cond yields thenBody elseBody] 1 (yielded yields) := by
  obtain ⟨thenEnd, hthenEnd, hthenEnds⟩ := hthen.ends
  obtain ⟨elseEnd, helseEnd, helseEnds⟩ := helse.ends
  apply Moves.single
  intro below stack hfits
  obtain ⟨rest, hpop, hrest⟩ := hfits.pop (Nat.le_add_left 1 below)
  rw [Nat.add_sub_cancel] at hrest
  exact ⟨_, by simp [instr, hpop, hthenEnd, helseEnd, hthenEnds, helseEnds],
    hrest.push (yielded yields)⟩

end Moves

theorem body_of_moves (h : Moves scope [1] code 0 1) : body scope code = true := by
  obtain ⟨after, hcode, hends⟩ := h.ends
  rw [body, hcode]
  exact hends

end Discipline

mutual

def InstrOf.callees {ι φ : Type} : InstrOf ι φ → List φ
  | .call callee => [callee]
  | .block body => InstrOf.allCallees body
  | .loop body => InstrOf.allCallees body
  | .cond _ thenBody elseBody => InstrOf.allCallees thenBody ++ InstrOf.allCallees elseBody
  | _ => []

def InstrOf.allCallees {ι φ : Type} : List (InstrOf ι φ) → List φ
  | [] => []
  | first :: rest => first.callees ++ InstrOf.allCallees rest

end

namespace Discipline

open Validate (Stack)

mutual

theorem instr_congr (hasLocal : String → Bool) (labels : List Nat) (stack : Stack) :
    (i : Instr) → (∀ callee ∈ i.callees, typeOf callee = typeOf' callee) →
      instr ⟨hasLocal, typeOf⟩ labels stack i = instr ⟨hasLocal, typeOf'⟩ labels stack i := by
  intro i h
  cases i with
  | block body | loop body => simp only [instr, listing_congr hasLocal (0 :: labels) {} body h]
  | cond yields thenBody elseBody =>
    have hthen := listing_congr hasLocal (yielded yields :: labels) {} thenBody
      fun callee hmem => h callee (mem_append_left _ hmem)
    have helse := listing_congr hasLocal (yielded yields :: labels) {} elseBody
      fun callee hmem => h callee (mem_append_right _ hmem)
    simp only [instr, hthen, helse]
  | call target => simp only [instr, effect, h target (mem_singleton_self _)]
  | _ => rfl

theorem listing_congr (hasLocal : String → Bool) (labels : List Nat) (stack : Stack) :
    (code : Code) → (∀ callee ∈ InstrOf.allCallees code, typeOf callee = typeOf' callee) →
      listing ⟨hasLocal, typeOf⟩ labels stack code =
        listing ⟨hasLocal, typeOf'⟩ labels stack code := by
  intro code h
  cases code with
  | nil => rfl
  | cons first rest =>
    have hfirst := instr_congr hasLocal labels stack first
      fun callee hmem => h callee (mem_append_left _ hmem)
    have hrest := fun stack => listing_congr hasLocal labels stack rest
      fun callee hmem => h callee (mem_append_right _ hmem)
    simp only [listing, hfirst, hrest]

end

theorem body_congr (hasLocal : String → Bool)
    (h : ∀ callee ∈ InstrOf.allCallees code, typeOf callee = typeOf' callee) :
    body ⟨hasLocal, typeOf⟩ code = body ⟨hasLocal, typeOf'⟩ code := by
  simp only [body, listing_congr hasLocal [1] {} code h]

end Discipline

namespace Helper

variable (slack : UInt32)

/-- The types of helpers and intrinsics, wherever they are available. -/
def runtimeType : Callee → Option FuncType
  | .user _ => none
  | .helper helper => some (CompiledUnit.functionType (helper.function 0))
  | .intrinsic intrinsic => some (CompiledUnit.intrinsicType intrinsic)

/-- The names in a helper, when everything it may call is available. -/
def scope (slack : UInt32) (helper : Helper) : Discipline.Scope where
  hasLocal name := ((helper.function slack).params ++ (helper.function slack).locals).contains name
  typeOf := runtimeType

theorem params_function (helper : Helper) :
    (helper.function slack).params = (helper.function 0).params := by
  cases helper <;> rfl

theorem exists_listSlice_parts : ∃ before after, (∀ slack : UInt32,
    (function slack .listSlice).body = before ++ [.constU slack] ++ after) ∧
    Discipline.listing (scope 0 .listSlice) [1] {} before = some { words := 1 } ∧
    Discipline.listing (scope 0 .listSlice) [1] { words := 2 } after = some { words := 1 } := by
  refine ⟨(function 0 .listSlice).body.take 9, (function 0 .listSlice).body.drop 10, ?_, ?_, ?_⟩
  · intro slack
    rfl
  · decide +kernel
  · decide +kernel

theorem body_disciplined (helper : Helper) :
    Discipline.body (helper.scope slack) (helper.function slack).body = true := by
  -- Only a slice depends on the slack, and only in a constant.
  by_cases hslice : helper = .listSlice
  · subst hslice
    obtain ⟨before, after, hbody, hbefore, hafter⟩ := exists_listSlice_parts
    have hscope : scope slack .listSlice = scope 0 .listSlice := rfl
    have hslack : Discipline.listing (scope 0 .listSlice) [1] { words := 1 } [.constU slack] =
        some { words := 2 } := rfl
    rw [hbody, hscope, Discipline.body, Discipline.listing_append, Discipline.listing_append,
      hbefore, bind_some, hslack, bind_some, hafter]
    rfl
  · have hfixed : ∀ helper : Helper, helper ≠ .listSlice →
        Discipline.body (helper.scope 0) (helper.function 0).body = true := by
      intro helper _
      cases helper <;> decide +kernel
    have hsame : helper.function slack = helper.function 0 := by
      cases helper <;> first | rfl | exact absurd rfl hslice
    have hscope : helper.scope slack = helper.scope 0 := by
      rw [scope, scope, hsame]
    rw [hsame, hscope]
    exact hfixed helper hslice

set_option maxRecDepth 2000 in
theorem allCallees_function (helper : Helper) : InstrOf.allCallees (helper.function slack).body =
      helper.helperDependencies.map Callee.helper ++
        helper.intrinsicDependencies.map Callee.intrinsic := by
  cases helper <;> rfl

end Helper

end TypedWasm
