import TypedWasm.Proofs.Encodable
import TypedWasm.Proofs.Execution
import TypedWasm.Proofs.Frames

/-!
# Validity keeps runs from getting stuck

A run gets stuck when it takes a word from an empty stack, or names a local or a function that is
not there. The code of a unit that encodes with validation on never does.

A run may have more words than the check counts: a jump to the end of a conditional keeps what the
conditional pushed. So the count is only a lower bound, above the height of the innermost block.
-/

namespace TypedWasm

open Discipline TypedWasm.Frame List Option

variable {args : List Word} {before after : Validate.Stack} {results base height : Nat} {s : State}
  {fn : Func} {popped pushed : Nat}

/-! ### Stuck runs -/

/-- Whether a trap comes from code that does not fit together. -/
def Trap.isStuck : Trap → Bool
  | .stackUnderflow | .unknownLocal _ | .unknownFunction _ => true
  | _ => false

/-- A result that is no trap of code that does not fit together. -/
def Unstuck {α : Type} (result : Except Trap α) : Prop :=
  ∀ trap, result = .error trap → trap.isStuck = false

namespace Unstuck

variable {α β : Type} {result : Except Trap α}

theorem ok (value : α) : Unstuck (.ok value) := by
  intro trap h
  cases h

theorem error {trap : Trap} (h : trap.isStuck = false) : Unstuck (.error trap : Except Trap α) := by
  intro trap h'
  cases h'
  exact h

theorem bind {next : α → Except Trap β} (h : Unstuck result)
    (hnext : ∀ value, Unstuck (next value)) : Unstuck (result >>= next) := by
  cases result with
  | ok value => exact hnext value
  | error trap => exact .error (h trap rfl)

theorem map (f : α → β) (h : Unstuck result) : Unstuck (result.map f) := by
  cases result with
  | ok value => exact .ok _
  | error trap => exact .error (h trap rfl)

end Unstuck

namespace Machine

variable (m : Machine) (address : Word) (intrinsic : Intrinsic)

theorem loadWord_unstuck (offset : UInt32) : Unstuck (m.loadWord address offset) := by
  rw [loadWord]
  split
  · exact .ok _
  · exact .error rfl

theorem storeWord_unstuck (offset : UInt32) (value : Word) :
    Unstuck (m.storeWord address offset value) := by
  rw [storeWord]
  split
  · exact .ok _
  · exact .error rfl

theorem readWords_unstuck (address count : Nat) : Unstuck (m.readWords address count) := by
  rw [readWords]
  split
  · exact .ok _
  · exact .error rfl

theorem readString_unstuck : Unstuck (m.readString address) :=
  (m.loadWord_unstuck _ _).bind fun _ => (m.readWords_unstuck _ _).bind fun _ => .ok _

theorem readBigint_unstuck : Unstuck (m.readBigint address) :=
  (m.loadWord_unstuck _ _).bind fun _ => (m.readWords_unstuck _ _).bind fun _ => .ok _

theorem writeWords_unstuck (offset : UInt32) (words : List Word) :
    Unstuck (m.writeWords address offset words).1 := by
  induction words generalizing m offset with
  | nil => exact .ok _
  | cons word rest ih =>
    have hstore := m.storeWord_unstuck address offset word
    simp only [writeWords]
    cases h : m.storeWord address offset word with
    | ok m' => exact ih m' (offset + 4)
    | error trap => exact .error (hstore trap h)

theorem placeWords_unstuck (address after : Word) (words : List Word) :
    Unstuck (m.placeWords address after words).1 := by
  have hstore := m.storeWord_unstuck (Word.ofUInt32 heapHeadAddress) 0 after
  rw [placeWords]
  cases h : m.storeWord (Word.ofUInt32 heapHeadAddress) 0 after with
  | error trap => exact .error (hstore trap h)
  | ok m' =>
    have hwrite := m'.writeWords_unstuck address 0 words
    simp only
    rcases he : writeWords m' address 0 words with ⟨_ | _, m''⟩
    · rw [he] at hwrite
      exact .error (hwrite _ rfl)
    · exact .ok _

theorem allocateBigint_unstuck (value : Int) : Unstuck (m.allocateBigint value).1 := by
  simp only [allocateBigint]
  generalize Lowering.bigintWords value = words
  generalize m.heapHead.toInt + 4 * words.length = after
  generalize pagesBelow (Word.ofInt after).toAddress = needed
  split
  · exact .error rfl
  · by_cases hroom : m.pages < needed
    · simp only [if_pos hroom]
      split
      · exact placeWords_unstuck _ _ _ _
      · exact .error rfl
    · simp only [if_neg hroom, if_true]
      exact placeWords_unstuck _ _ _ _

theorem bignumArithmetic_unstuck (left right : Int) :
    Unstuck (bignumArithmetic intrinsic left right) := by
  unfold bignumArithmetic
  repeat' split
  all_goals first
    | exact .ok _
    | exact .error rfl

/-- An intrinsic on two big integers traps where they cannot be read, or where it has no result. -/
theorem bignums_unstuck {α : Type} (left right : Word) {next : Int → Int → Except Trap α}
    (hnext : ∀ a b, Unstuck (next a b)) :
    Unstuck (do next (← m.readBigint left) (← m.readBigint right)) :=
  (m.readBigint_unstuck left).bind fun _ => (m.readBigint_unstuck right).bind fun _ => hnext _ _

theorem printing_unstuck (word : Word) {text : Except Trap String} (h : Unstuck text) :
    Unstuck (m.printing word text).1 := by
  cases text with
  | ok text => exact .ok _
  | error trap => exact .error (h trap rfl)

theorem host_unstuck (hargs : args.length = intrinsic.arity) :
    Unstuck (m.host intrinsic args).1 := by
  cases intrinsic with
  | printNum | printBool | printNone =>
    obtain ⟨a, rfl⟩ := length_eq_one_iff.1 hargs
    exact m.printing_unstuck a (.ok _)
  | printStr =>
    obtain ⟨a, rfl⟩ := length_eq_one_iff.1 hargs
    exact m.printing_unstuck a (m.readString_unstuck a)
  | printBignum =>
    obtain ⟨a, rfl⟩ := length_eq_one_iff.1 hargs
    exact m.printing_unstuck a ((m.readBigint_unstuck a).map _)
  | abs =>
    obtain ⟨a, rfl⟩ := length_eq_one_iff.1 hargs
    exact .ok _
  | pow | min | max =>
    obtain ⟨a, b, rfl⟩ := length_eq_two.1 hargs
    exact .ok _
  | keyError =>
    obtain ⟨a, rfl⟩ := length_eq_one_iff.1 hargs
    exact .error rfl
  | indexError | unpackError =>
    obtain ⟨a, b, rfl⟩ := length_eq_two.1 hargs
    exact .error rfl
  | bignumAdd | bignumSub | bignumMul | bignumDiv | bignumMod =>
    obtain ⟨a, b, rfl⟩ := length_eq_two.1 hargs
    simp only [host]
    split
    · exact m.allocateBigint_unstuck _
    · next he => exact .error (m.bignums_unstuck a b (bignumArithmetic_unstuck _) _ he)
  | bignumEq | bignumNe | bignumLt | bignumLte | bignumGt | bignumGte =>
    obtain ⟨a, b, rfl⟩ := length_eq_two.1 hargs
    simp only [host]
    split
    · exact .ok _
    · next he => exact .error (m.bignums_unstuck a b (fun _ _ => .ok _) _ he)

theorem host_returns {intrinsic : Intrinsic} {word : Word} (hargs : args.length = intrinsic.arity)
    (h : (m.host intrinsic args).1 = .ok word) : intrinsic.returnsValue = true := by
  cases intrinsic with
  | indexError | unpackError =>
    obtain ⟨a, b, rfl⟩ := length_eq_two.1 hargs
    cases h
  | keyError =>
    obtain ⟨a, rfl⟩ := length_eq_one_iff.1 hargs
    cases h
  | _ => rfl

end Machine

theorem Exec.numeric_unstuck (op : NumericOp) (left right : Word) :
    Unstuck (Exec.numeric op left right) := by
  cases op with
  | divS =>
    simp only [Exec.numeric]
    split
    · exact .error rfl
    · split
      · exact .error rfl
      · exact .ok _
  | remS =>
    simp only [Exec.numeric]
    split
    · exact .error rfl
    · exact .ok _
  | _ => exact .ok _

/-! ### The check in reachable code -/

namespace Validate.Stack

theorem pop_reachable {count : Nat} (hreach : before.unreachable = false)
    (h : before.pop count = some after) :
    count ≤ before.words ∧ after = { words := before.words - count } := by
  by_cases hle : count ≤ before.words
  · rw [pop, if_pos hle, Option.some.injEq, hreach] at h
    exact ⟨hle, h.symm⟩
  · simp [pop, hle, hreach] at h

theorem swap_reachable (hreach : before.unreachable = false)
    (h : before.swap popped pushed = some after) :
    popped ≤ before.words ∧ after = { words := before.words - popped + pushed } := by
  obtain ⟨rest, hpop, rfl⟩ := map_eq_some_iff.1 h
  obtain ⟨hle, rfl⟩ := pop_reachable hreach hpop
  exact ⟨hle, rfl⟩

theorem ends_reachable {stack : Stack} (hreach : stack.unreachable = false)
    (h : stack.ends results = true) : stack.words = results := by
  cases hpop : stack.pop results with
  | none => simp [ends, hpop] at h
  | some rest =>
    obtain ⟨hle, rfl⟩ := pop_reachable hreach hpop
    simp only [ends, hpop, any_some, beq_iff_eq] at h
    omega

end Validate.Stack

/-! ### Checked code -/

namespace Soundness

open Validate (Stack)
open Exec (Result)

variable {scope : Discipline.Scope} {labels : List Nat}

def Covers (scope : Discipline.Scope) (frame : Frame) : Prop :=
  ∀ name, scope.hasLocal name = true → (frame.get? name).isSome

theorem Covers.set? {frame : Frame} (h : Covers scope frame) {name : String}
    (hname : scope.hasLocal name = true) (value : Word) :
    ∃ frame', frame.set? name value = some frame' ∧ Covers scope frame' := by
  obtain ⟨frame', hset⟩ := exists_set? (h name hname) value
  refine ⟨frame', hset, fun other hother => ?_⟩
  rw [get?_of_set? hset]
  split
  · rfl
  · exact h other hother

/-- A state at which checked code starts, inside a block that was entered at height `base`. -/
structure Ready (scope : Discipline.Scope) (base : Nat) (before : Stack) (s : State) : Prop where
  covers : Covers scope s.locals
  reachable : before.unreachable = false
  height : base + before.words ≤ s.stack.length

/-- What the check promises of a result, for code in a block that was entered at height `base`. -/
def Safe (scope : Discipline.Scope) (labels : List Nat) (base : Nat) (after : Stack) :
    Result → Prop
  | (.next, s) => Ready scope base after s
  | (.branch depth, s) =>
    Covers scope s.locals ∧ ∃ arity, labels[depth]? = some arity ∧ base + arity ≤ s.stack.length
  | (.ret, s) => 1 ≤ s.stack.length
  | (.trap trap, _) => trap.isStuck = false

section Rules

variable {result : Result}

theorem Safe.lower (h : Safe scope labels height { words := results } result)
    (hreach : before.unreachable = false) (hle : base + before.words ≤ height) :
    Safe scope labels base (before.push results) result := by
  obtain ⟨_ | depth | _ | _, s⟩ := result
  · obtain ⟨hcovers, -, hheight⟩ := h
    simp only at hheight
    exact ⟨hcovers, hreach, by simp only [Stack.push]; omega⟩
  · obtain ⟨hcovers, arity, harity, hheight⟩ := h
    exact ⟨hcovers, arity, harity, by omega⟩
  · exact h
  · exact h

/-- The end of a body that leaves `results` words, reached from inside or by a jump to its label. -/
theorem Safe.leaveBody {inner : Stack} {atLabel : State → State}
    (h : Safe scope (results :: labels) height inner result) (hends : inner.ends results = true)
    (hlabel : ∀ s, Ready scope height { words := results } s →
      Ready scope height { words := results } (atLabel s)) :
    Safe scope labels height { words := results } (Exec.leaveBody atLabel result) := by
  obtain ⟨_ | ⟨_ | depth⟩ | _ | _, s⟩ := result
  · obtain ⟨hcovers, hreach, hheight⟩ := h
    rw [Stack.ends_reachable hreach hends] at hheight
    exact ⟨hcovers, rfl, hheight⟩
  · obtain ⟨hcovers, arity, harity, hheight⟩ := h
    cases harity
    exact hlabel s ⟨hcovers, rfl, hheight⟩
  · exact h
  · exact h
  · exact h

theorem Ready.truncate (h : Ready scope height {} s) :
    Ready scope height {} (s.truncate height) := by
  refine ⟨h.covers, rfl, ?_⟩
  have hheight := h.height
  simp only [State.truncate, length_drop] at hheight ⊢
  omega

theorem exists_two_words {stack : List Word} (h : 2 ≤ stack.length) :
    ∃ top below rest, stack = top :: below :: rest := by
  match stack, h with
  | top :: below :: rest, _ => exact ⟨top, below, rest, rfl⟩

/-- An instruction with an effect takes its words from the stack and leaves others. -/
theorem effect_safe {run : Code → State → Result} {again : Nat → Code → State → Result}
    {i : Instr} (hatomic : i.isAtomic = true)
    (heffect : effect scope i = some (popped, pushed)) (hle : popped ≤ before.words)
    (hs : Ready scope base before s) :
    Safe scope labels base { words := before.words - popped + pushed }
      (Exec.step run again i s) := by
  obtain ⟨hcovers, hreach, hheight⟩ := hs
  obtain ⟨m, locals, stack⟩ := s
  simp only at hcovers hheight
  -- A stack with enough words for the instruction is taken apart; what is left has its height.
  cases i with
  | call | block | loop | cond => simp [InstrOf.isAtomic] at hatomic
  | ret | unreachable | br | brIf => simp [effect] at heffect
  | const | memorySize | nop =>
    cases heffect
    refine ⟨hcovers, rfl, ?_⟩
    simp only [State.push, length_cons]
    omega
  | localGet name =>
    by_cases hname : scope.hasLocal name
    · rw [effect, if_pos hname] at heffect
      cases heffect
      obtain ⟨value, hvalue⟩ := isSome_iff_exists.1 (hcovers name hname)
      simp only [Exec.step, hvalue]
      refine ⟨hcovers, rfl, ?_⟩
      simp only [State.push, length_cons]
      omega
    · simp [effect, hname] at heffect
  | localSet name | localTee name =>
    by_cases hname : scope.hasLocal name
    · rw [effect, if_pos hname] at heffect
      cases heffect
      obtain ⟨value, rest, rfl⟩ := exists_cons_of_length_pos (show 0 < stack.length by omega)
      obtain ⟨locals', hset, hcovers'⟩ := hcovers.set? hname value
      simp only [Exec.step, hset]
      refine ⟨hcovers', rfl, ?_⟩
      simp only [length_cons] at hheight ⊢
      omega
    · simp [effect, hname] at heffect
  | load offset =>
    cases heffect
    obtain ⟨address, rest, rfl⟩ := exists_cons_of_length_pos (show 0 < stack.length by omega)
    simp only [Exec.step]
    split
    · refine ⟨hcovers, rfl, ?_⟩
      simp only [length_cons] at hheight ⊢
      omega
    · next he => exact m.loadWord_unstuck _ _ _ he
  | store offset =>
    cases heffect
    obtain ⟨value, address, rest, rfl⟩ := exists_two_words (show 2 ≤ stack.length by omega)
    simp only [Exec.step]
    split
    · refine ⟨hcovers, rfl, ?_⟩
      simp only [length_cons] at hheight ⊢
      omega
    · next he => exact m.storeWord_unstuck _ _ _ _ he
  | numeric op =>
    cases heffect
    obtain ⟨right, left, rest, rfl⟩ := exists_two_words (show 2 ≤ stack.length by omega)
    simp only [Exec.step]
    split
    · refine ⟨hcovers, rfl, ?_⟩
      simp only [length_cons] at hheight ⊢
      omega
    · next he => exact Exec.numeric_unstuck _ _ _ _ he
  | eqz | memoryGrow | drop =>
    cases heffect
    obtain ⟨value, rest, rfl⟩ := exists_cons_of_length_pos (show 0 < stack.length by omega)
    refine ⟨hcovers, rfl, ?_⟩
    simp only [length_cons] at hheight ⊢
    omega

end Rules

/-! ### Steps and runs -/

section Runs

variable {u : CompiledUnit} {functions : List Func}

/-- The functions of a unit are the ones loaded under their names. -/
def Linked (u : CompiledUnit) (functions : List Func) : Prop :=
  ∀ name fn, u.find? name = some fn → functions.find? (·.name == name) = some fn

def RunsSafe (u : CompiledUnit) (functions : List Func) (run : Code → State → Result) : Prop :=
  ∀ fn labels base before after code s, s.machine.functions = functions →
    listing (u.scope fn) labels before code = some after →
    Ready (u.scope fn) base before s → Safe (u.scope fn) labels base after (run code s)

def LoopsSafe (u : CompiledUnit) (functions : List Func)
    (again : Nat → Code → State → Result) : Prop :=
  ∀ fn labels height inner body s, s.machine.functions = functions →
    listing (u.scope fn) (0 :: labels) {} body = some inner → inner.ends 0 = true →
    Ready (u.scope fn) height {} s → Safe (u.scope fn) labels height {} (again height body s)

variable {run : Code → State → Result} {again : Nat → Code → State → Result}

theorem call_unstuck (hrun : RunsSafe u functions run) {m : Machine} (hm : m.functions = functions)
    (hbody : body (u.scope fn) fn.body = true) (hargs : args.length = fn.params.length) :
    Unstuck (Exec.call run m fn args).1 := by
  obtain ⟨after, hlisting, hends⟩ : ∃ after,
      listing (u.scope fn) [1] {} fn.body = some after ∧ after.ends 1 = true := by
    simpa only [body, Option.any_eq_true] using hbody
  have hcovers : Covers (u.scope fn) (Frame.ofCall fn args) := fun name hname =>
    get?_ofCall_isSome hargs (by simpa [CompiledUnit.scope] using hname)
  have hsafe := hrun fn [1] 0 {} after fn.body { machine := m, locals := Frame.ofCall fn args } hm
    hlisting ⟨hcovers, rfl, Nat.zero_le _⟩
  -- However the body ends, there is a word on the stack, unless it traps.
  have hword : ∀ flow t, run fn.body { machine := m, locals := Frame.ofCall fn args } = (flow, t) →
      (∀ trap, flow ≠ .trap trap) → 1 ≤ t.stack.length := by
    intro flow t he hflow
    rw [he] at hsafe
    rcases flow with _ | depth | _ | trap
    · have hheight := hsafe.height
      rw [Stack.ends_reachable hsafe.reachable hends] at hheight
      omega
    · obtain ⟨-, arity, harity, hheight⟩ := hsafe
      have := mem_of_getElem? harity
      simp only [mem_singleton] at this
      omega
    · exact hsafe
    · exact absurd rfl (hflow trap)
  rw [Exec.call]
  split
  · next trap t he =>
    rw [he] at hsafe
    exact .error hsafe
  · next flow t hflow he =>
    have hlength := hword flow t he hflow
    split
    · next hstack => simp [hstack] at hlength
    · exact .ok _

theorem afterCall_safe {words : Nat} {rest : List Word} {effect : Machine.Effect Word}
    (hcovers : Covers scope s.locals) (hunstuck : Unstuck effect.1)
    (hresults : ∀ word, effect.1 = .ok word → results = 1) (hrest : base + words ≤ rest.length) :
    Safe scope labels base { words := words + results } (Exec.afterCall s rest effect) := by
  obtain ⟨_ | word, m⟩ := effect
  · exact hunstuck _ rfl
  · refine ⟨hcovers, rfl, ?_⟩
    rw [hresults word rfl]
    simp only [length_cons]
    omega

section Steps

variable (hlink : Linked u functions)
  (hbodies : ∀ fn ∈ u.allFunctions, body (u.scope fn) fn.body = true)
include hlink hbodies

/-- A call takes the words of its type off the stack and leaves its results. -/
theorem callee_safe (hrun : RunsSafe u functions run) {target : Callee} {type : FuncType}
    (hs : s.machine.functions = functions) (htype : u.calleeType target = some type)
    (hle : type.params ≤ before.words) (hready : Ready (u.scope fn) base before s) :
    Safe (u.scope fn) labels base
      { words := before.words - type.params + Validate.resultCount type }
      (Exec.callee run target s) := by
  have hheight := hready.height
  obtain ⟨args, rest, hpop, hargs, hrest⟩ :=
    Exec.popArgs?_eq_some (show type.params ≤ s.stack.length by omega)
  have hbelow : base + (before.words - type.params) ≤ rest.length := by omega
  -- A call by name finds the function of the unit whose type the check used.
  have hnamed : ∀ name, (u.find? name).map CompiledUnit.functionType = some type →
      Safe (u.scope fn) labels base
        { words := before.words - type.params + Validate.resultCount type }
        (Exec.callNamed run name s) := by
    intro name hname
    obtain ⟨callee, hfind, rfl⟩ := map_eq_some_iff.1 hname
    have hloaded : s.machine.function? name = some callee := by
      rw [Machine.function?, hs]
      exact hlink name callee hfind
    have hparams : Exec.popArgs? s.stack callee.params.length = some (args, rest) := hpop
    have hunstuck := call_unstuck hrun hs (hbodies callee (mem_of_find?_eq_some hfind)) hargs
    simp only [Exec.callNamed, hloaded, hparams]
    exact afterCall_safe hready.covers hunstuck (fun _ _ => rfl) hbelow
  cases target with
  | user name => exact hnamed name htype
  | helper helper => exact hnamed helper.name htype
  | intrinsic intrinsic =>
    simp only [CompiledUnit.calleeType, ite_none_right_eq_some, Option.some.injEq] at htype
    obtain ⟨-, rfl⟩ := htype
    have harity : Exec.popArgs? s.stack intrinsic.arity = some (args, rest) := hpop
    simp only [Exec.callee_intrinsic, Exec.callHost, harity]
    refine afterCall_safe hready.covers (s.machine.host_unstuck intrinsic hargs) ?_ hbelow
    intro word hword
    have hreturns := s.machine.host_returns hargs hword
    simp [Validate.resultCount, CompiledUnit.intrinsicType, hreturns]

/-- **One instruction.** If listings and loops run safely, so does an instruction that passes the
check. -/
theorem step_safe (hrun : RunsSafe u functions run) (hagain : LoopsSafe u functions again)
    {i : Instr} (hs : s.machine.functions = functions)
    (hi : instr (u.scope fn) labels before i = some after)
    (hready : Ready (u.scope fn) base before s) :
    Safe (u.scope fn) labels base after (Exec.step run again i s) := by
  have hreach := hready.reachable
  have hheight := hready.height
  cases i with
  | ret =>
    simp only [instr, map_eq_some_iff] at hi
    obtain ⟨rest, hpop, -⟩ := hi
    obtain ⟨hle, -⟩ := Stack.pop_reachable hreach hpop
    exact show 1 ≤ s.stack.length by omega
  | unreachable => rfl
  | br depth =>
    simp only [instr, bind_eq_bind, bind_eq_some_iff, map_eq_some_iff] at hi
    obtain ⟨arity, harity, rest, hpop, -⟩ := hi
    obtain ⟨hle, -⟩ := Stack.pop_reachable hreach hpop
    exact ⟨hready.covers, arity, harity, by omega⟩
  | brIf depth =>
    simp only [instr, bind_eq_bind, bind_eq_some_iff] at hi
    obtain ⟨rest, hpop, arity, harity, hswap⟩ := hi
    obtain ⟨hle, rfl⟩ := Stack.pop_reachable hreach hpop
    obtain ⟨harityle, rfl⟩ := Stack.swap_reachable rfl hswap
    obtain ⟨m, locals, stack⟩ := s
    simp only at hheight harityle
    obtain ⟨value, rest, rfl⟩ := exists_cons_of_length_pos (show 0 < stack.length by omega)
    simp only [length_cons] at hheight
    by_cases hvalue : value ≠ 0
    · simp only [Exec.step, if_pos hvalue]
      exact ⟨hready.covers, arity, harity, by simp only; omega⟩
    · simp only [Exec.step, if_neg hvalue]
      exact ⟨hready.covers, rfl, by simp only; omega⟩
  | block body =>
    simp only [instr, bind_eq_bind, bind_eq_some_iff,
      ite_none_right_eq_some, Option.some.injEq] at hi
    obtain ⟨inner, hinner, hends, rfl⟩ := hi
    have hbody := hrun fn (0 :: labels) s.stack.length {} inner body s hs hinner
      ⟨hready.covers, rfl, Nat.le_refl _⟩
    exact (hbody.leaveBody hends fun _ => Ready.truncate).lower hreach hheight
  | loop body =>
    simp only [instr, bind_eq_bind, bind_eq_some_iff,
      ite_none_right_eq_some, Option.some.injEq] at hi
    obtain ⟨inner, hinner, hends, rfl⟩ := hi
    have hloop := hagain fn labels s.stack.length inner body s hs hinner hends
      ⟨hready.covers, rfl, Nat.le_refl _⟩
    exact Safe.lower hloop hreach hheight
  | cond yields thenBody elseBody =>
    simp only [instr, bind_eq_bind, bind_eq_some_iff,
      ite_none_right_eq_some, Option.some.injEq, Bool.and_eq_true] at hi
    obtain ⟨rest, hpop, thenEnd, hthen, elseEnd, helse, ⟨hthenEnds, helseEnds⟩, rfl⟩ := hi
    obtain ⟨hle, rfl⟩ := Stack.pop_reachable hreach hpop
    obtain ⟨m, locals, stack⟩ := s
    simp only at hheight
    obtain ⟨value, rest, rfl⟩ := exists_cons_of_length_pos (show 0 < stack.length by omega)
    simp only [length_cons] at hheight
    have hstart : Ready (u.scope fn) rest.length {} ⟨m, locals, rest⟩ :=
      ⟨hready.covers, rfl, Nat.le_refl _⟩
    have hbranch : Safe (u.scope fn) labels rest.length { words := yielded yields }
        (Exec.step run again (.cond yields thenBody elseBody) ⟨m, locals, value :: rest⟩) := by
      by_cases hvalue : value ≠ 0
      · simp only [Exec.step, if_pos hvalue]
        exact (hrun fn _ _ {} thenEnd thenBody ⟨m, locals, rest⟩ hs hthen
          hstart).leaveBody hthenEnds fun _ h => h
      · simp only [Exec.step, if_neg hvalue]
        exact (hrun fn _ _ {} elseEnd elseBody ⟨m, locals, rest⟩ hs helse
          hstart).leaveBody helseEnds fun _ h => h
    exact hbranch.lower rfl (by simp only; omega)
  | call target =>
    simp only [instr, effect, bind_eq_some_iff, map_eq_some_iff] at hi
    obtain ⟨⟨popped, pushed⟩, ⟨type, htype, hpair⟩, hswap⟩ := hi
    cases hpair
    obtain ⟨hle, rfl⟩ := Stack.swap_reachable hreach hswap
    exact callee_safe hlink hbodies hrun hs htype hle hready
  | _ =>
    simp only [instr, bind_eq_some_iff] at hi
    obtain ⟨⟨popped, pushed⟩, heffect, hswap⟩ := hi
    obtain ⟨hle, rfl⟩ := Stack.swap_reachable hreach hswap
    exact effect_safe rfl heffect hle hready

/-- **A whole run.** Listings and loops that pass the check run safely to any depth. -/
theorem run_safe (depth : Nat) :
    RunsSafe u functions (Exec.run depth) ∧ LoopsSafe u functions (Exec.again depth) := by
  induction depth with
  | zero => exact ⟨fun _ _ _ _ _ _ _ _ _ _ => rfl, fun _ _ _ _ _ _ _ _ _ _ => rfl⟩
  | succ depth ih =>
    obtain ⟨hrun, hagain⟩ := ih
    constructor
    · intro fn labels base before after code s hs hcode hready
      cases code with
      | nil =>
        cases hcode
        exact hready
      | cons i rest =>
        simp only [listing, bind_eq_some_iff] at hcode
        obtain ⟨between, hi, hrest⟩ := hcode
        have hburnt : Ready (u.scope fn) base before s.burn :=
          ⟨hready.covers, hready.reachable, hready.height⟩
        have hstep := step_safe hlink hbodies hrun hagain (s := s.burn) hs hi hburnt
        have hkeeps :=
          Exec.step_keeps (Exec.run_follows depth).1 (Exec.run_follows depth).2 i s.burn
        simp only [Exec.run]
        split
        · rfl
        · rcases he : Exec.step (Exec.run depth) (Exec.again depth) i s.burn with ⟨_ | _ | _ | _, t⟩
          · rw [he] at hstep hkeeps
            exact hrun fn labels base between after rest t (hkeeps.functions.trans hs) hrest hstep
          all_goals rwa [he] at hstep
    · intro fn labels height inner body s hs hinner hends hready
      have hbody := hrun fn (0 :: labels) height {} inner body s hs hinner hready
      have hkeeps := (Exec.run_follows depth).1 body s
      simp only [Exec.again]
      rcases he : Exec.run depth body s with ⟨_ | ⟨_ | label⟩ | _ | _, t⟩
      · rw [he] at hbody
        exact hbody.leaveBody hends fun _ h => h
      · -- The body is left through the loop's own label, so the loop starts again.
        rw [he] at hbody hkeeps
        obtain ⟨hcovers, arity, harity, hheight⟩ := hbody
        cases harity
        have hstart : Ready (u.scope fn) height {} t := ⟨hcovers, rfl, hheight⟩
        exact hagain fn labels height inner body _ (hkeeps.functions.trans hs) hinner hends
          hstart.truncate
      all_goals rwa [he] at hbody

end Steps

end Runs

end Soundness

/-! ### Valid units -/

theorem Soundness.linked_load {u : CompiledUnit} (hnames : (u.allFunctions.map (·.name)).Nodup)
    (m : Machine) : Linked u (m.load u).functions := by
  intro name fn hfind
  rw [CompiledUnit.find?] at hfind
  have hname := find?_some hfind
  simp only [beq_iff_eq] at hname
  subst hname
  exact Machine.function?_load hnames (mem_of_find?_eq_some hfind) m

/-- **Validity keeps runs from getting stuck.** A unit that encodes with validation on, loaded into
any machine, has no call with an argument for every parameter that takes a word from an empty stack
or names a local or a function that is not there. -/
theorem CompiledUnit.call_never_stuck (u : CompiledUnit)
    (hvalidate : u.config.validateOutput = true) {bytes : List UInt8}
    (hencode : u.encode = .ok bytes) (m : Machine) {fn : Func} (hfn : fn ∈ u.allFunctions)
    {args : List Word} (hargs : args.length = fn.params.length) :
    ((m.load u).call fn.name args).1 ≠ .error .stackUnderflow ∧
      (∀ name, ((m.load u).call fn.name args).1 ≠ .error (.unknownLocal name)) ∧
      ∀ name, ((m.load u).call fn.name args).1 ≠ .error (.unknownFunction name) := by
  obtain ⟨hnames, -, -, hbodies⟩ := (u.encode_ok_iff hvalidate).1 ⟨bytes, hencode⟩
  have hlink := Soundness.linked_load hnames m
  have hrun := (Soundness.run_safe hlink hbodies (2 * (m.load u).fuel + 1)).1
  have hcall : (m.load u).call fn.name args =
      Exec.call (Exec.run (2 * (m.load u).fuel + 1)) (m.load u) fn args := by
    simp only [Machine.call, Machine.function?_load hnames hfn m]
  have hunstuck : Unstuck ((m.load u).call fn.name args).1 := by
    rw [hcall]
    exact Soundness.call_unstuck hrun rfl (hbodies fn hfn) hargs
  refine ⟨?_, ?_, ?_⟩
  · intro h
    cases hunstuck _ h
  · intro name h
    cases hunstuck _ h
  · intro name h
    cases hunstuck _ h

def Soundness.countdown : CompiledUnit where
  functions := [{
    name := "countdown"
    params := ["n"]
    body := [
      .block [.loop [.localGet "n", .eqz, .brIf 1, .localGet "n", .const 1, .numeric .sub,
        .localSet "n", .br 0]],
      .localGet "n"] }]
  main := { name := mainName, body := [.const 3, .callUser "countdown"] }

theorem Soundness.countdown_never_stuck :
    ((Machine.load { memory := { pages := 1 } } countdown).call "countdown" [3]).1 ≠
        .error .stackUnderflow ∧
      (∀ name, ((Machine.load { memory := { pages := 1 } } countdown).call "countdown" [3]).1 ≠
        .error (.unknownLocal name)) ∧
      ∀ name, ((Machine.load { memory := { pages := 1 } } countdown).call "countdown" [3]).1 ≠
        .error (.unknownFunction name) := by
  have hbodies : ∀ fn ∈ countdown.allFunctions,
      body (countdown.scope fn) fn.body = true := by decide
  have hlimits : countdown.limits.Fit := by
    refine ⟨by decide, fun pages hpages => ?_⟩
    cases hpages
    decide
  obtain ⟨bytes, hbytes⟩ := (countdown.encode_ok_iff rfl).2 ⟨by decide, hlimits, by decide, hbodies⟩
  exact countdown.call_never_stuck rfl hbytes _ mem_cons_self rfl

end TypedWasm
